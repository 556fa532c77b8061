import GroceryListApp.Services.DataServiceRules

/-!
# The reconciliation of the email

`reloadEmail` shows the stored email and compares it with the one of the authentication. If they
differ it writes the latter and calls itself, so a chain of reads goes on until a read finds them
equal. Any number of chains may be pending while the authentication's email changes and while an
update writes the content of a text field.

The write of one chain makes the emails equal for all of them. So a chain writes once more only after
something else has made them different again, and the last read of all finds them equal.
-/

namespace GroceryListApp

open Realtime

/-- The email stored for an account. -/
def storedEmail (db : Store Value) (uid : Key) : Option String :=
  asString (db.snapshot [Keys.users, uid, Keys.email])

/-- An email is stored when it is in the field of the account. -/
theorem storedEmail_eq_some_iff (db : Store Value) (uid : Key) (email : String) :
    storedEmail db uid = some email ↔ db.get [Keys.users, uid, Keys.email] = some (.string email) := by
  rw [storedEmail, asString_eq_some_iff, value_snapshot]

/-- The write of `changeEmail`. -/
def writeEmail (uid : Key) (email : String) : Write Value :=
  .update [Keys.users, uid] [([Keys.email], str email)]

/-- A change of email is one write. -/
theorem changeEmail_eq {M : Type*} (uid : Key) (email : String) :
    (changeEmail uid.1 email : Prog M Value) = .write (writeEmail uid email) .done := by
  simp [changeEmail, writeEmail, REF_USERS, Ref.updateChildValues]

/-- The written email is stored. -/
theorem storedEmail_writeEmail (uid : Key) (email : String) (db : Store Value) :
    storedEmail ((writeEmail uid email).apply db) uid = some email := by
  rw [storedEmail_eq_some_iff]
  exact get_update_leaf [Keys.users, uid] [Keys.email] _ _

namespace MeVC

/-! ### The screen -/

/-- The database, the email of the authentication, the label, the chains whose read is pending, and
the number of chains so far. -/
structure EmailScreen where
  db : Store Value
  authEmail : String
  emailLbl : String
  reads : List ℕ
  chains : ℕ

/-- What happens to the screen: the authentication's email changes, the screen appears, an update of
the email succeeds with what the text field then holds, or a pending read is answered. -/
inductive EmailEvent where
  | authChanges (email : String)
  | appears
  | updateSucceeds (retypeNewEmail : String)
  | answers (index : ℕ)
  deriving DecidableEq

/-- What an event has done to the chains and to the emails. -/
inductive EmailNote where
  | authChanged
  | fieldWritten
  | started (chain : ℕ)
  | repaired (chain : ℕ)
  | ended (chain : ℕ)
  deriving DecidableEq

/-- The read with which `reloadEmail` begins. -/
def EmailScreen.reloadEmail (s : EmailScreen) (chain : ℕ) : EmailScreen :=
  { s with reads := s.reads ++ [chain] }

/-- A call of `reloadEmail` from outside its own callback. -/
def EmailScreen.startChain (s : EmailScreen) : EmailScreen :=
  let next := { s with chains := s.chains + 1 }
  next.reloadEmail s.chains

/-- The callback of `reloadEmail`. -/
def EmailScreen.showEmail (uid : Key) (s : EmailScreen) (chain : ℕ) (returnedEmail : String) :
    EmailScreen × List EmailNote :=
  let shown := { s with emailLbl := returnedEmail }
  if shown.emailLbl ≠ shown.authEmail then
    let repaired := { shown with db := (writeEmail uid shown.authEmail).apply shown.db }
    (repaired.reloadEmail chain, [.repaired chain])
  else (shown, [.ended chain])

/-- What an event does, with notes, the latest first; `none` if there is no such read, or if the cast
of the stored email fails. -/
def EmailScreen.step (uid : Key) (s : EmailScreen) : EmailEvent → Option (EmailScreen × List EmailNote)
  | .authChanges email => some ({ s with authEmail := email }, [.authChanged])
  | .appears => some (s.startChain, [.started s.chains])
  | .updateSucceeds retypeNewEmail =>
      let written := { s with db := (writeEmail uid retypeNewEmail).apply s.db }
      some (written.startChain, [.started s.chains, .fieldWritten])
  | .answers index => do
      let chain ← s.reads[index]?
      let returnedEmail ← storedEmail s.db uid
      let answered := { s with reads := s.reads.eraseIdx index }
      some (answered.showEmail uid chain returnedEmail)

/-- Some events happened one after the other; the notes have the latest first. -/
inductive EmailRun (uid : Key) (start : EmailScreen) : List EmailNote → EmailScreen → Prop
  | nil : EmailRun uid start [] start
  | snoc {past notes : List EmailNote} {s s' : EmailScreen} {e : EmailEvent} :
      EmailRun uid start past s → s.step uid e = some (s', notes) →
      EmailRun uid start (notes ++ past) s'

/-! ### What is claimed of the notes -/

/-- The chain has started and has not ended. -/
def Open (chain : ℕ) (past : List EmailNote) : Prop := .started chain ∈ past ∧ .ended chain ∉ past

instance (chain : ℕ) (past : List EmailNote) : Decidable (Open chain past) :=
  inferInstanceAs (Decidable (_ ∧ _))

/-- A change of the authentication's email, or a write of a text field. -/
def EmailNote.Disturbs (note : EmailNote) : Prop := note = .authChanged ∨ note = .fieldWritten

instance (note : EmailNote) : Decidable note.Disturbs := inferInstanceAs (Decidable (_ ∨ _))

/-- The number of disturbances that happened while the chain was open. -/
def disturbances (chain : ℕ) : List EmailNote → ℕ
  | [] => 0
  | note :: past => disturbances chain past + if note.Disturbs ∧ Open chain past then 1 else 0

/-- The number of writes of a chain. -/
def repairs (chain : ℕ) (past : List EmailNote) : ℕ := past.count (.repaired chain)

/-- A chain was started after the last change of the authentication's email. -/
def StartedSince : List EmailNote → Prop
  | [] => False
  | .started _ :: _ => True
  | .authChanged :: _ => False
  | _ :: past => StartedSince past

/-! ### The writes of a chain -/

/-- The stored email is the one of the authentication. -/
def EmailScreen.Agrees (uid : Key) (s : EmailScreen) : Prop := storedEmail s.db uid = some s.authEmail

instance (uid : Key) (s : EmailScreen) : Decidable (s.Agrees uid) :=
  inferInstanceAs (Decidable (storedEmail s.db uid = some s.authEmail))

/-- The chains with a pending read are the open ones. While the emails differ, a chain that is open has
not written more often than it was disturbed, and otherwise at most once more. -/
structure Chains (uid : Key) (past : List EmailNote) (s : EmailScreen) : Prop where
  stored : ∃ email, storedEmail s.db uid = some email
  nodup : s.reads.Nodup
  pending : ∀ chain, chain ∈ s.reads ↔ Open chain past
  fresh : ∀ chain, .started chain ∈ past ∨ .ended chain ∈ past ∨ .repaired chain ∈ past →
    chain < s.chains
  bound : ∀ chain, repairs chain past ≤
    disturbances chain past + if chain ∈ s.reads ∧ ¬ s.Agrees uid then 0 else 1

namespace Chains

variable {uid : Key} {past : List EmailNote} {s : EmailScreen}

/-- A disturbance is counted for every open chain. -/
theorem disturb (h : Chains uid past s) {note : EmailNote} (hnote : note.Disturbs) {db : Store Value}
    (hstored : ∃ email, storedEmail db uid = some email) (email : String) :
    Chains uid (note :: past) { s with db := db, authEmail := email } := by
  have hopen (chain : ℕ) : Open chain (note :: past) ↔ Open chain past := by
    rcases hnote with rfl | rfl <;> simp [Open]
  have hrepairs (chain : ℕ) : repairs chain (note :: past) = repairs chain past := by
    rcases hnote with rfl | rfl <;> simp [repairs]
  refine ⟨hstored, h.nodup, fun chain => ?_, fun chain hchain => ?_, fun chain => ?_⟩
  · rw [hopen]
    exact h.pending chain
  · apply h.fresh chain
    rcases hnote with rfl | rfl <;> simpa using hchain
  · have hbound := h.bound chain
    rw [hrepairs, disturbances]
    by_cases hchain : chain ∈ s.reads
    · rw [if_pos ⟨hnote, (h.pending chain).mp hchain⟩]
      split at hbound <;> omega
    · have hno : ¬ (chain ∈ s.reads ∧ ¬ s.Agrees uid) := fun hboth => hchain hboth.1
      have hno' : ¬ (chain ∈ s.reads ∧
          ¬ EmailScreen.Agrees uid { s with db := db, authEmail := email }) :=
        fun hboth => hchain hboth.1
      rw [if_neg hno] at hbound
      rw [if_neg hno']
      omega

/-- A new chain has not written yet. -/
theorem start (h : Chains uid past s) : Chains uid (.started s.chains :: past) s.startChain := by
  have hnew : .started s.chains ∉ past ∧ .ended s.chains ∉ past ∧ .repaired s.chains ∉ past := by
    have hfresh (hpast : .started s.chains ∈ past ∨ .ended s.chains ∈ past ∨
        .repaired s.chains ∈ past) : False := absurd (h.fresh _ hpast) (lt_irrefl _)
    exact ⟨fun hp => hfresh (Or.inl hp), fun hp => hfresh (Or.inr (Or.inl hp)),
      fun hp => hfresh (Or.inr (Or.inr hp))⟩
  have hnotread : s.chains ∉ s.reads := fun hmem => hnew.1 ((h.pending _).mp hmem).1
  have hreads : s.startChain.reads = s.reads ++ [s.chains] := rfl
  refine ⟨h.stored, ?_, fun chain => ?_, fun chain hchain => ?_, fun chain => ?_⟩
  · rw [hreads]
    rw [← List.concat_eq_append]
    exact h.nodup.concat hnotread
  · rw [hreads, List.mem_append, List.mem_singleton, h.pending]
    simp only [Open, List.mem_cons, EmailNote.started.injEq, reduceCtorEq, false_or]
    constructor
    · intro hchain
      rcases hchain with hchain | rfl
      · exact ⟨Or.inr hchain.1, hchain.2⟩
      · exact ⟨Or.inl rfl, hnew.2.1⟩
    · intro hchain
      rcases hchain.1 with rfl | hstarted
      · exact Or.inr rfl
      · exact Or.inl ⟨hstarted, hchain.2⟩
  · change chain < s.chains + 1
    by_cases hsame : chain = s.chains
    · omega
    · have := h.fresh chain (by simpa [hsame] using hchain)
      omega
  · have hrepairs : repairs chain (.started s.chains :: past) = repairs chain past := by
      simp [repairs]
    have hdisturb : disturbances chain (.started s.chains :: past) = disturbances chain past := by
      simp [disturbances, EmailNote.Disturbs]
    rw [hrepairs, hdisturb, hreads]
    by_cases hsame : chain = s.chains
    · have hzero : repairs chain past = 0 := List.count_eq_zero.mpr (hsame ▸ hnew.2.2)
      omega
    · have hbound := h.bound chain
      have hmem : chain ∈ s.reads ++ [s.chains] ↔ chain ∈ s.reads := by simp [hsame]
      simp only [hmem]
      exact hbound

/-- What remains of the reads when one is answered, and the answered one. -/
theorem mem_eraseIdx (h : Chains uid past s) {index chain : ℕ} (hread : s.reads[index]? = some chain)
    (other : ℕ) : other ∈ s.reads.eraseIdx index ↔ other ∈ s.reads ∧ other ≠ chain := by
  obtain ⟨hindex, hget⟩ := List.getElem?_eq_some_iff.mp hread
  have herase : s.reads.eraseIdx index = s.reads.erase chain := by
    rw [← hget]
    exact (h.nodup.erase_getElem index hindex).symm
  rw [herase, h.nodup.mem_erase_iff, and_comm]

/-- A chain that finds different emails has been disturbed since its last write, and makes them equal. -/
theorem repair (h : Chains uid past s) {index chain : ℕ} (hread : s.reads[index]? = some chain)
    (hdiffer : ¬ s.Agrees uid) (label : String) :
    Chains uid (.repaired chain :: past)
      { s with db := (writeEmail uid s.authEmail).apply s.db, emailLbl := label,
               reads := s.reads.eraseIdx index ++ [chain] } := by
  have hchain : chain ∈ s.reads := List.mem_of_getElem? hread
  have hmem (other : ℕ) : other ∈ s.reads.eraseIdx index ++ [chain] ↔ other ∈ s.reads := by
    rw [List.mem_append, List.mem_singleton, h.mem_eraseIdx hread]
    constructor
    · intro hother
      rcases hother with hother | rfl
      · exact hother.1
      · exact hchain
    · intro hother
      by_cases hsame : other = chain
      · exact Or.inr hsame
      · exact Or.inl ⟨hother, hsame⟩
  have hnodup : (s.reads.eraseIdx index ++ [chain]).Nodup := by
    rw [← List.concat_eq_append]
    apply List.Nodup.concat _ (h.nodup.sublist (List.eraseIdx_sublist _ _))
    intro hagain
    exact ((h.mem_eraseIdx hread chain).mp hagain).2 rfl
  refine ⟨⟨_, storedEmail_writeEmail uid s.authEmail s.db⟩, hnodup, fun other => ?_,
    fun other hother => ?_, fun other => ?_⟩
  · rw [hmem, h.pending]
    simp [Open]
  · by_cases hsame : other = chain
    · rw [hsame]
      exact h.fresh chain (Or.inl ((h.pending chain).mp hchain).1)
    · exact h.fresh other (by simpa [hsame] using hother)
  · have hagrees : EmailScreen.Agrees uid
        { s with db := (writeEmail uid s.authEmail).apply s.db, emailLbl := label,
                 reads := s.reads.eraseIdx index ++ [chain] } :=
      storedEmail_writeEmail uid s.authEmail s.db
    have hdisturb : disturbances other (.repaired chain :: past) = disturbances other past := by
      simp [disturbances, EmailNote.Disturbs]
    have hbound := h.bound other
    rw [hdisturb, if_neg fun hboth => hboth.2 hagrees]
    by_cases hsame : other = chain
    · rw [hsame] at hbound ⊢
      rw [if_pos ⟨hchain, hdiffer⟩] at hbound
      rw [repairs, List.count_cons_self, ← repairs]
      omega
    · have hrepairs : repairs other (.repaired chain :: past) = repairs other past := by
        simp [repairs, Ne.symm hsame]
      rw [hrepairs]
      split at hbound <;> omega

/-- A chain that finds equal emails ends. -/
theorem finish (h : Chains uid past s) {index chain : ℕ} (hread : s.reads[index]? = some chain)
    (hagrees : s.Agrees uid) (label : String) :
    Chains uid (.ended chain :: past)
      { s with emailLbl := label, reads := s.reads.eraseIdx index } := by
  have hchain : chain ∈ s.reads := List.mem_of_getElem? hread
  refine ⟨h.stored, h.nodup.sublist (List.eraseIdx_sublist _ _), fun other => ?_,
    fun other hother => ?_, fun other => ?_⟩
  · rw [h.mem_eraseIdx hread, h.pending]
    simp only [Open, List.mem_cons, EmailNote.ended.injEq, reduceCtorEq, false_or, not_or]
    tauto
  · by_cases hsame : other = chain
    · rw [hsame]
      exact h.fresh chain (Or.inl ((h.pending chain).mp hchain).1)
    · exact h.fresh other (by simpa [hsame] using hother)
  · have hdisturb : disturbances other (.ended chain :: past) = disturbances other past := by
      simp [disturbances, EmailNote.Disturbs]
    have hrepairs : repairs other (.ended chain :: past) = repairs other past := by
      simp [repairs]
    have hbound := h.bound other
    have hsame : EmailScreen.Agrees uid
        { s with emailLbl := label, reads := s.reads.eraseIdx index } := hagrees
    rw [if_neg fun hboth => hboth.2 hagrees] at hbound
    rw [hdisturb, hrepairs, if_neg fun hboth => hboth.2 hsame]
    exact hbound

end Chains

/-! ### Runs -/

/-- What answering a read does: the chain repairs the stored email, or it ends. -/
theorem step_answers {uid : Key} {s s' : EmailScreen} {index : ℕ} {notes : List EmailNote}
    (h : s.step uid (.answers index) = some (s', notes)) :
    ∃ chain email, s.reads[index]? = some chain ∧ storedEmail s.db uid = some email ∧
      ((email ≠ s.authEmail ∧ notes = [.repaired chain] ∧
        s' = { s with db := (writeEmail uid s.authEmail).apply s.db, emailLbl := email,
                      reads := s.reads.eraseIdx index ++ [chain] }) ∨
      (email = s.authEmail ∧ notes = [.ended chain] ∧
        s' = { s with emailLbl := email, reads := s.reads.eraseIdx index })) := by
  simp only [EmailScreen.step, Option.bind_eq_bind, Option.bind_eq_some_iff, Option.some.injEq] at h
  obtain ⟨chain, hread, email, hstored, hshown⟩ := h
  refine ⟨chain, email, hread, hstored, ?_⟩
  unfold EmailScreen.showEmail at hshown
  by_cases hsame : email = s.authEmail
  · rw [if_neg (not_not.mpr hsame)] at hshown
    obtain ⟨rfl, rfl⟩ := Prod.mk.inj hshown
    exact Or.inr ⟨hsame, rfl, rfl⟩
  · rw [if_pos hsame] at hshown
    obtain ⟨rfl, rfl⟩ := Prod.mk.inj hshown
    exact Or.inl ⟨hsame, rfl, rfl⟩

/-- Every event keeps the bound on the writes of all chains. -/
theorem Chains.step {uid : Key} {past notes : List EmailNote} {s s' : EmailScreen} {e : EmailEvent}
    (h : Chains uid past s) (hstep : s.step uid e = some (s', notes)) : Chains uid (notes ++ past) s' := by
  cases e with
  | authChanges email =>
    obtain ⟨rfl, rfl⟩ := Prod.mk.inj (Option.some.inj hstep)
    exact h.disturb (Or.inl rfl) h.stored email
  | appears =>
    obtain ⟨rfl, rfl⟩ := Prod.mk.inj (Option.some.inj hstep)
    exact h.start
  | updateSucceeds retypeNewEmail =>
    obtain ⟨rfl, rfl⟩ := Prod.mk.inj (Option.some.inj hstep)
    have hwritten : Chains uid (.fieldWritten :: past)
        { s with db := (writeEmail uid retypeNewEmail).apply s.db } :=
      h.disturb (Or.inr rfl) ⟨_, storedEmail_writeEmail uid retypeNewEmail s.db⟩ s.authEmail
    exact hwritten.start
  | answers index =>
    obtain ⟨chain, email, hread, hstored, ⟨hdiffer, rfl, rfl⟩ | ⟨hsame, rfl, rfl⟩⟩ := step_answers hstep
    · refine h.repair hread (fun hagrees => hdiffer ?_) email
      exact Option.some.inj (hstored.symm.trans hagrees)
    · exact h.finish hread (hstored.trans (congrArg some hsame)) email

/-- After a chain was started, and unless the authentication's email has changed since, a read is pending
or the stored email and the label are the authentication's. -/
def Settles (uid : Key) (past : List EmailNote) (s : EmailScreen) : Prop :=
  StartedSince past → s.reads ≠ [] ∨ s.Agrees uid ∧ s.emailLbl = s.authEmail

/-- Every event leaves the emails to be settled by a pending read, or settles them. -/
theorem Settles.step {uid : Key} {past notes : List EmailNote} {s s' : EmailScreen} {e : EmailEvent}
    (hstep : s.step uid e = some (s', notes)) : Settles uid (notes ++ past) s' := by
  intro hsince
  cases e with
  | authChanges email =>
    obtain ⟨rfl, rfl⟩ := Prod.mk.inj (Option.some.inj hstep)
    exact hsince.elim
  | appears =>
    obtain ⟨rfl, rfl⟩ := Prod.mk.inj (Option.some.inj hstep)
    exact Or.inl (List.append_ne_nil_of_right_ne_nil _ (List.cons_ne_nil _ _))
  | updateSucceeds retypeNewEmail =>
    obtain ⟨rfl, rfl⟩ := Prod.mk.inj (Option.some.inj hstep)
    exact Or.inl (List.append_ne_nil_of_right_ne_nil _ (List.cons_ne_nil _ _))
  | answers index =>
    obtain ⟨chain, email, hread, hstored, ⟨hdiffer, rfl, rfl⟩ | ⟨hsame, rfl, rfl⟩⟩ := step_answers hstep
    · exact Or.inl (List.append_ne_nil_of_right_ne_nil _ (List.cons_ne_nil _ _))
    · exact Or.inr ⟨hstored.trans (congrArg some hsame), hsame⟩

/-- Answer pending reads one after the other. -/
def answerAll (uid : Key) (s : EmailScreen) (order : List ℕ) : Option EmailScreen :=
  order.foldlM (fun s index => (s.step uid (.answers index)).map Prod.fst) s

/-- While only reads are answered, a single one of them can find different emails. -/
theorem length_answerAll {uid : Key} {s s' : EmailScreen} {order : List ℕ}
    (h : answerAll uid s order = some s') :
    order.length + (s'.reads.length + if s'.Agrees uid then 0 else 1) =
      s.reads.length + if s.Agrees uid then 0 else 1 := by
  induction order generalizing s with
  | nil =>
    rw [Option.some.inj h, List.length_nil, Nat.zero_add]
  | cons index order ih =>
    rw [answerAll, List.foldlM_cons] at h
    obtain ⟨mid, hmid, hrest⟩ := Option.bind_eq_some_iff.mp h
    have hlater := ih hrest
    obtain ⟨⟨next, notes⟩, hstep, rfl⟩ := Option.map_eq_some_iff.mp hmid
    obtain ⟨chain, email, hread, hstored, hcases⟩ := step_answers hstep
    have hlength : (s.reads.eraseIdx index).length + 1 = s.reads.length := by
      obtain ⟨hindex, -⟩ := List.getElem?_eq_some_iff.mp hread
      rw [List.length_eraseIdx_of_lt hindex]
      omega
    rw [List.length_cons]
    rcases hcases with ⟨hdiffer, -, rfl⟩ | ⟨hsame, -, rfl⟩
    · have hbefore : ¬ s.Agrees uid := fun hagrees =>
        hdiffer (Option.some.inj (hstored.symm.trans hagrees))
      have hafter : EmailScreen.Agrees uid
          { s with db := (writeEmail uid s.authEmail).apply s.db, emailLbl := email,
                   reads := s.reads.eraseIdx index ++ [chain] } :=
        storedEmail_writeEmail uid s.authEmail s.db
      rw [if_pos hafter] at hlater
      rw [if_neg hbefore]
      simp only [List.length_append, List.length_singleton] at hlater
      omega
    · have hbefore : s.Agrees uid := hstored.trans (congrArg some hsame)
      have hafter : EmailScreen.Agrees uid
          { s with emailLbl := email, reads := s.reads.eraseIdx index } := hbefore
      rw [if_pos hafter] at hlater
      rw [if_pos hbefore]
      simp only at hlater
      omega

/-- Answering reads leaves some email stored. -/
theorem stored_answerAll {uid : Key} {s s' : EmailScreen} {order : List ℕ}
    (hstored : ∃ email, storedEmail s.db uid = some email) (h : answerAll uid s order = some s') :
    ∃ email, storedEmail s'.db uid = some email := by
  induction order generalizing s with
  | nil => exact Option.some.inj h ▸ hstored
  | cons index order ih =>
    rw [answerAll, List.foldlM_cons] at h
    obtain ⟨mid, hmid, hrest⟩ := Option.bind_eq_some_iff.mp h
    obtain ⟨⟨next, notes⟩, hstep, rfl⟩ := Option.map_eq_some_iff.mp hmid
    obtain ⟨chain, email, -, hemail, ⟨-, -, rfl⟩ | ⟨-, -, rfl⟩⟩ := step_answers hstep
    · exact ih ⟨_, storedEmail_writeEmail uid s.authEmail s.db⟩ hrest
    · exact ih (s := { s with emailLbl := email, reads := s.reads.eraseIdx index }) ⟨email, hemail⟩ hrest

/-- A pending read can be answered. -/
theorem exists_answer {uid : Key} {s : EmailScreen} (hstored : ∃ email, storedEmail s.db uid = some email)
    (hpending : s.reads ≠ []) : ∃ next, s.step uid (.answers 0) = some next := by
  obtain ⟨email, hemail⟩ := hstored
  obtain ⟨chain, rest, hreads⟩ := List.exists_cons_of_ne_nil hpending
  simp [EmailScreen.step, hemail, hreads]

/-- Along every run the writes of all chains are bounded. -/
theorem EmailRun.chains {uid : Key} {start s : EmailScreen} {past : List EmailNote}
    (hstored : ∃ email, storedEmail start.db uid = some email) (hreads : start.reads = [])
    (h : EmailRun uid start past s) : Chains uid past s := by
  induction h with
  | nil =>
    refine ⟨hstored, ?_, fun chain => ?_, fun chain hchain => by simp at hchain, fun chain => ?_⟩
    · rw [hreads]
      exact List.nodup_nil
    · simp [hreads, Open]
    · simp [repairs]
  | snoc _ hstep ih => exact ih.step hstep

/-- Along every run the emails are settled, or are going to be. -/
theorem EmailRun.settles {uid : Key} {start s : EmailScreen} {past : List EmailNote}
    (h : EmailRun uid start past s) : Settles uid past s := by
  cases h with
  | nil => exact fun hsince => hsince.elim
  | snoc _ hstep => exact Settles.step hstep

/-- Each chain writes at most once more than it is disturbed; once no more is done than to answer the
pending reads, all chains end after at most one read more than are pending; and with nothing pending
the stored email and the label are the authentication's, if a chain was started after its last change. -/
theorem email_reconciles {uid : Key} {start s : EmailScreen} {past : List EmailNote}
    (hstored : ∃ email, storedEmail start.db uid = some email) (hreads : start.reads = [])
    (h : EmailRun uid start past s) :
    (∀ chain, repairs chain past ≤ disturbances chain past + 1) ∧
      (∀ order s', answerAll uid s order = some s' → order.length ≤ s.reads.length + 1 ∧
        (s'.reads ≠ [] → ∃ next, answerAll uid s (order ++ [0]) = some next)) ∧
      (s.reads = [] → StartedSince past →
        storedEmail s.db uid = some s.authEmail ∧ s.emailLbl = s.authEmail) := by
  have hchains := h.chains hstored hreads
  refine ⟨fun chain => ?_, fun order s' horder => ⟨?_, fun hpending => ?_⟩, fun hdone hsince => ?_⟩
  · have hbound := hchains.bound chain
    split at hbound <;> omega
  · have hlength := length_answerAll horder
    split at hlength <;> split at hlength <;> omega
  · obtain ⟨next, hnext⟩ := exists_answer (stored_answerAll hchains.stored horder) hpending
    refine ⟨next.1, ?_⟩
    rw [answerAll, List.foldlM_append, ← answerAll, horder]
    simp [hnext]
  · exact (h.settles hsince).resolve_left (not_not.mpr hdone)

/-- Take some events in order. -/
def EmailScreen.play (uid : Key) (s : EmailScreen) (events : List EmailEvent) :
    Option (EmailScreen × List EmailNote) :=
  events.foldlM (fun (s, past) e => (s.step uid e).map fun (next, notes) => (next, notes ++ past)) (s, [])

/-- Events that can be taken in order are a run. -/
theorem run_of_play {uid : Key} {start s : EmailScreen} {events : List EmailEvent}
    {past : List EmailNote} (h : start.play uid events = some (s, past)) : EmailRun uid start past s := by
  suffices hplay : ∀ (mid : EmailScreen) (before : List EmailNote), EmailRun uid start before mid →
      events.foldlM (fun (s, past) e => (s.step uid e).map fun (next, notes) => (next, notes ++ past))
        (mid, before) = some (s, past) → EmailRun uid start past s from hplay start [] .nil h
  clear h
  induction events with
  | nil =>
    intro mid before hrun h
    obtain ⟨rfl, rfl⟩ := Prod.mk.inj (Option.some.inj h)
    exact hrun
  | cons e events ih =>
    intro mid before hrun h
    rw [List.foldlM_cons] at h
    obtain ⟨next, hnext, hrest⟩ := Option.bind_eq_some_iff.mp h
    obtain ⟨⟨s', notes⟩, hstep, rfl⟩ := Option.map_eq_some_iff.mp hnext
    exact ih s' _ (hrun.snoc hstep) hrest

/-- The screen appears while the authentication has another email than the one that is stored. -/
theorem email_reconciles_once : ∃ s past, EmailScreen.play Sample.uidA
      ⟨(writeEmail Sample.uidA "old@mail.com").apply .empty, "new@mail.com", "", [], 0⟩
      [.appears, .answers 0, .answers 0] = some (s, past) ∧
    storedEmail s.db Sample.uidA = some "new@mail.com" ∧ s.emailLbl = "new@mail.com" := by
  have hplay : (EmailScreen.play Sample.uidA
      ⟨(writeEmail Sample.uidA "old@mail.com").apply .empty, "new@mail.com", "", [], 0⟩
      [.appears, .answers 0, .answers 0]).map (fun (s, past) => (s.authEmail, s.reads, past)) =
        some ("new@mail.com", [], [.ended 0, .repaired 0, .started 0]) := by
    decide
  obtain ⟨⟨s, past⟩, hs, hlast⟩ := Option.map_eq_some_iff.mp hplay
  obtain ⟨hauth, hrest⟩ := Prod.mk.inj hlast
  obtain ⟨hreads, hpast⟩ := Prod.mk.inj hrest
  have hsettled := (email_reconciles ⟨_, storedEmail_writeEmail _ _ _⟩ rfl (run_of_play hs)).2.2
  have hsince : StartedSince past := by
    rw [hpast]
    trivial
  obtain ⟨hstored, hlabel⟩ := hsettled hreads hsince
  exact ⟨s, past, hs, hauth ▸ hstored, hauth ▸ hlabel⟩

end MeVC

end GroceryListApp

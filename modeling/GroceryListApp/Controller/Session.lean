import GroceryListApp.Model.Records
import GroceryListApp.Realtime.Machine

/-!
# Who is signed in behind the login screen

The main tabs are at the bottom of the window; the login screen is presented over them, and the
sign-up screen over the login screen. Firebase Auth keeps the user that is signed in, also when the
process is killed. Creating an account and signing in sign the user in, and the handler that was
passed with the request runs then.

A handler belongs to the screen that made the request, which may have been dismissed since; so
screens are numbered in the order they are created. Alerts other than the verification popup, and
what is typed into the forms, change nothing here.
-/

namespace GroceryListApp

open Realtime

/-- What covers the main tabs: nothing, the login screen, or the sign-up screen over it. -/
inductive Cover where
  | tabs
  | login (number : ℕ) (appeared : Bool)
  | createAccount (login number : ℕ) (popup : Bool)
  deriving DecidableEq

/-- Whether a login screen is in the window, perhaps under the sign-up screen. -/
def Cover.hasLogin (number : ℕ) : Cover → Bool
  | .tabs => false
  | .login n _ => n = number
  | .createAccount n _ _ => n = number

/-- A request to Firebase Auth whose handler has not run. The sign-up, the login and the resend
belong to a screen. -/
inductive AuthRequest (U : Type*) where
  | signUp (number : ℕ)
  | login (number : ℕ)
  | resend (number : ℕ)
  | sendEmailVerification (number : ℕ)
  | delete (user : U)
  deriving DecidableEq

/-- The accounts, with whether their emails are verified, and the app on one device. -/
structure Session (U : Type*) where
  accounts : U → Option Bool
  currentUser : Option U
  running : Bool
  cover : Cover
  verificationCodeBtn : Bool
  pending : List (AuthRequest U)
  created : ℕ

/-- What happens to the app. An answer names a pending request and the user it is about, if it
succeeds; where the handler signs out, `signsOut` says whether that is without an error. -/
inductive SessionEvent (U : Type*) where
  | launch
  | kill
  | loginDidAppear
  | loginTextDidChange
  | showCreateAccount
  | signUpBtnWasPressed
  | closeBtnWasPressed
  | verificationAction (signsOut : Bool)
  | loginBtnWasPressed
  | verificationCodeBtnWasPressed
  | logoutBtnPressed (signsOut : Bool)
  | deleteAcntBtnWasPressed
  | answer (index : ℕ) (user : Option U) (signsOut : Bool)
  | verify (user : U)
  deriving DecidableEq

namespace Session

variable {U : Type*}

/-- `Auth.auth().currentUser?.isEmailVerified`. -/
def isEmailVerified (s : Session U) : Option Bool := s.currentUser.bind s.accounts

/-- `try Auth.auth().signOut()`. -/
def signOut (s : Session U) (signsOut : Bool) : Session U :=
  if signsOut then { s with currentUser := none } else s

/-- Present a new login screen. It is not presented where something is presented already. -/
def presentLogin (s : Session U) : Session U :=
  match s.cover with
  | .tabs => { s with
      cover := .login s.created false, verificationCodeBtn := false, created := s.created + 1 }
  | _ => s

/-- `dismiss` of a login screen: it goes, or the sign-up screen that it presents. -/
def dismissLogin (s : Session U) (number : ℕ) : Session U :=
  match s.cover with
  | .tabs => s
  | .login n _ => if n = number then { s with cover := .tabs } else s
  | .createAccount n _ _ => if n = number then { s with cover := .login n false } else s

/-- Show or hide the button of a login screen that resends the verification mail. -/
def setVerificationCodeBtn (s : Session U) (number : ℕ) (enabled : Bool) : Session U :=
  if s.cover.hasLogin number then { s with verificationCodeBtn := enabled } else s

/-- A new process, in which the main tabs are shown. -/
def newProcess (s : Session U) : Session U :=
  { s with running := true, cover := .tabs, verificationCodeBtn := false, pending := [] }

/-- `application(_:didFinishLaunchingWithOptions:)`. -/
def didFinishLaunching (s : Session U) : Session U :=
  if s.currentUser = none then
    (if s.isEmailVerified = some false then s.presentLogin else s).presentLogin
  else s

/-- `viewDidAppear` of a login screen. -/
def loginDidAppear (s : Session U) (number : ℕ) : Session U :=
  (if s.currentUser ≠ none then s.dismissLogin number else s).setVerificationCodeBtn number false

/-- The handler of a login, after the user was signed in. -/
def loginComplete (s : Session U) (number : ℕ) (signsOut : Bool) : Session U :=
  if s.isEmailVerified = some false then
    if signsOut then (s.signOut signsOut).setVerificationCodeBtn number true else s
  else s.dismissLogin number

/-- The handler of a sign-up, after the account was created. A screen that was dismissed presents
nothing. -/
def userCreationComplete (s : Session U) (number : ℕ) : Session U :=
  match s.cover with
  | .createAccount login n _ => if n = number then { s with cover := .createAccount login n true } else s
  | _ => s

/-! ### Who is behind the main tabs -/

/-- The main tabs are only shown to a user whose email is verified. -/
def Gated (s : Session U) : Prop :=
  s.running = true → s.cover = .tabs → s.isEmailVerified = some true

instance : DecidablePred (Gated : Session U → Prop) := fun s =>
  inferInstanceAs (Decidable (s.running = true → s.cover = .tabs → s.isEmailVerified = some true))

variable {s : Session U} {number : ℕ} {signsOut : Bool}

/-- Behind a screen nothing is asked of the user. -/
theorem gated_of_cover (h : s.cover ≠ .tabs) : s.Gated := fun _ htabs => absurd htabs h

/-- Without a user, the main tabs have to be covered. -/
theorem gated_iff_of_none (hrunning : s.running = true) (hnone : s.currentUser = none) :
    s.Gated ↔ s.cover ≠ .tabs := by
  refine ⟨fun h htabs => ?_, gated_of_cover⟩
  have := h hrunning htabs
  simp [isEmailVerified, hnone] at this

/-- With a user, the main tabs have to be covered unless the email is verified. -/
theorem gated_iff_of_some (hrunning : s.running = true) {verified : Bool}
    (hsome : s.isEmailVerified = some verified) : s.Gated ↔ verified = true ∨ s.cover ≠ .tabs := by
  by_cases htabs : s.cover = .tabs
  · simp [Gated, hrunning, hsome, htabs]
  · exact iff_of_true (gated_of_cover htabs) (Or.inr htabs)

/-- After a login screen was presented, the main tabs are covered. -/
theorem presentLogin_cover (s : Session U) : s.presentLogin.cover ≠ .tabs := by
  unfold presentLogin
  split
  · simp
  · next h => exact h

/-- A dismissed login does not verify an email. -/
@[simp] theorem dismissLogin_isEmailVerified (s : Session U) (number : ℕ) :
    (s.dismissLogin number).isEmailVerified = s.isEmailVerified := by
  unfold dismissLogin
  split
  · rfl
  · split <;> rfl
  · split <;> rfl

/-- The button of the verification leaves what the window shows. -/
@[simp] theorem setVerificationCodeBtn_cover (s : Session U) (number : ℕ) (enabled : Bool) :
    (s.setVerificationCodeBtn number enabled).cover = s.cover := by
  unfold setVerificationCodeBtn
  split <;> rfl

/-- So it does not open the gate. -/
@[simp] theorem setVerificationCodeBtn_gated (s : Session U) (number : ℕ) (enabled : Bool) :
    (s.setVerificationCodeBtn number enabled).Gated ↔ s.Gated := by
  unfold setVerificationCodeBtn
  split <;> rfl

/-- A launch shows the main tabs to whoever is signed in. -/
theorem gated_didFinishLaunching (hrunning : s.running = true) (htabs : s.cover = .tabs) :
    s.didFinishLaunching.Gated ↔ s.currentUser = none ∨ s.isEmailVerified = some true := by
  unfold didFinishLaunching
  split
  · next hnone => exact iff_of_true (gated_of_cover (presentLogin_cover _)) (Or.inl hnone)
  · next hsome => simp [Gated, hrunning, htabs, hsome]

/-- A login screen that appears shows the main tabs to whoever is signed in. -/
theorem gated_loginDidAppear (hrunning : s.running = true) (hcover : s.cover = .login number true) :
    (s.loginDidAppear number).Gated ↔ s.currentUser = none ∨ s.isEmailVerified = some true := by
  rw [loginDidAppear, setVerificationCodeBtn_gated]
  split
  · next hsome =>
    have htabs : (s.dismissLogin number).cover = .tabs := by simp [dismissLogin, hcover]
    have hrunning' : (s.dismissLogin number).running = true := by simp [dismissLogin, hcover, hrunning]
    rw [Gated, htabs, hrunning', dismissLogin_isEmailVerified]
    simp [hsome]
  · next hnone =>
    refine iff_of_true (gated_of_cover ?_) (Or.inl (not_not.mp hnone))
    simp [hcover]

/-- The handler of a login leaves the main tabs to a verified user only, or covered. -/
theorem gated_loginComplete (hrunning : s.running = true) {verified : Bool}
    (hsome : s.isEmailVerified = some verified) :
    (s.loginComplete number signsOut).Gated ↔ verified = true ∨ s.cover ≠ .tabs := by
  unfold loginComplete
  split
  · next hfalse =>
    obtain rfl : verified = false := Option.some.inj (hsome.symm.trans hfalse)
    split
    · next hout =>
      subst hout
      rw [setVerificationCodeBtn_gated, gated_iff_of_none (s := s.signOut true) hrunning rfl]
      simp [signOut]
    · exact gated_iff_of_some hrunning hsome
  · next hfalse =>
    obtain rfl : verified = true := by
      cases verified with
      | false => exact absurd hsome hfalse
      | true => rfl
    refine iff_of_true (fun _ _ => ?_) (Or.inl rfl)
    rw [dismissLogin_isEmailVerified, hsome]

/-- The handler of a sign-up covers nothing that was not covered. -/
theorem userCreationComplete_cover (s : Session U) (number : ℕ) :
    (s.userCreationComplete number).cover = .tabs ↔ s.cover = .tabs := by
  unfold userCreationComplete
  split
  · next h => split <;> simp [h]
  · rfl

/-- The completion of a sign-up does not verify an email. -/
theorem userCreationComplete_isEmailVerified (s : Session U) (number : ℕ) :
    (s.userCreationComplete number).isEmailVerified = s.isEmailVerified := by
  unfold userCreationComplete
  split
  · split <;> rfl
  · rfl

/-- The completion of a sign-up leaves the process running. -/
theorem userCreationComplete_running (s : Session U) (number : ℕ) :
    (s.userCreationComplete number).running = s.running := by
  unfold userCreationComplete
  split
  · split <;> rfl
  · rfl

/-! ### Events -/

variable [DecidableEq U]

/-- The answer to a pending request. -/
def answered (s : Session U) (user : Option U) (signsOut : Bool) : AuthRequest U → Option (Session U)
  | .signUp number =>
    match user with
    | none => some s
    | some u =>
      if s.accounts u = none then
        some ({ s with accounts := Function.update s.accounts u (some false), currentUser := some u }
          |>.userCreationComplete number)
      else none
  | .login number =>
    match user with
    | none => some s
    | some u =>
      if s.accounts u ≠ none then some ({ s with currentUser := some u }.loginComplete number signsOut)
      else none
  | .resend number =>
    match user with
    | none => some s
    | some u =>
      if s.accounts u ≠ none then
        some { s with currentUser := some u, pending := s.pending ++ [.sendEmailVerification number] }
      else none
  | .sendEmailVerification number => some ((s.signOut signsOut).setVerificationCodeBtn number false)
  | .delete u =>
    match user with
    | none => some s
    | some _ =>
      some ({ s with accounts := Function.update s.accounts u none,
                     currentUser := if s.currentUser = some u then none else s.currentUser }
        |>.presentLogin)

/-- An event while the app is running. -/
def act (s : Session U) : SessionEvent U → Option (Session U)
  | .kill => some { s with running := false }
  | .loginDidAppear =>
    match s.cover with
    | .login number false => some ({ s with cover := .login number true }.loginDidAppear number)
    | _ => none
  | .loginTextDidChange => some { s with verificationCodeBtn := false }
  | .showCreateAccount =>
    match s.cover with
    | .login number _ => some { s with
        cover := .createAccount number s.created false, created := s.created + 1 }
    | _ => none
  | .signUpBtnWasPressed =>
    match s.cover with
    | .createAccount _ number false => some { s with pending := s.pending ++ [.signUp number] }
    | _ => none
  | .closeBtnWasPressed =>
    match s.cover with
    | .createAccount login _ false => some { s with cover := .login login false }
    | _ => none
  | .verificationAction signsOut =>
    match s.cover with
    | .createAccount login number true =>
        let signedOut := s.signOut signsOut
        some (if signsOut then { signedOut with cover := .login login false }
          else { signedOut with cover := .createAccount login number false })
    | _ => none
  | .loginBtnWasPressed =>
    match s.cover with
    | .login number _ => some { s with pending := s.pending ++ [.login number] }
    | _ => none
  | .verificationCodeBtnWasPressed =>
    match s.cover, s.verificationCodeBtn with
    | .login number _, true => some { s with pending := s.pending ++ [.resend number] }
    | _, _ => none
  | .logoutBtnPressed signsOut =>
    match s.cover with
    | .tabs => some (if signsOut then (s.signOut signsOut).presentLogin else s)
    | _ => none
  | .deleteAcntBtnWasPressed =>
    match s.cover with
    | .tabs => some (match s.currentUser with
        | some u => { s with pending := s.pending ++ [.delete u] }
        | none => s)
    | _ => none
  | .answer index user signsOut =>
    s.pending[index]?.bind fun request =>
      { s with pending := s.pending.eraseIdx index }.answered user signsOut request
  | _ => none

/-- One event. Accounts are verified by mail at any time; a process is launched when none runs. -/
def step (s : Session U) : SessionEvent U → Option (Session U)
  | .launch => if s.running then none else some s.newProcess.didFinishLaunching
  | .verify u =>
    (s.accounts u).map fun _ => { s with accounts := Function.update s.accounts u (some true) }
  | e => if s.running then s.act e else none

/-- No answer signs an unverified user in, or the user out, while the main tabs are shown. -/
def GuardedAnswer (s : Session U) (user : Option U) (signsOut : Bool) : AuthRequest U → Prop
  | .signUp _ => user ≠ none → s.cover ≠ .tabs
  | .login _ | .resend _ => user.bind s.accounts = some false → s.cover ≠ .tabs
  | .sendEmailVerification _ => signsOut = true → s.cover ≠ .tabs
  | .delete _ => True

/-- When the app is launched, and when the login screen appears, nobody is signed in whose email is
not verified; and answers are guarded. -/
def Guarded (s : Session U) : SessionEvent U → Prop
  | .launch | .loginDidAppear => s.currentUser = none ∨ s.isEmailVerified = some true
  | .answer index user signsOut => ∀ request ∈ s.pending[index]?, s.GuardedAnswer user signsOut request
  | _ => True

instance (s : Session U) (user : Option U) (signsOut : Bool) :
    DecidablePred (s.GuardedAnswer user signsOut) := fun request => by
  unfold GuardedAnswer
  split <;> infer_instance

instance (s : Session U) (e : SessionEvent U) : Decidable (s.Guarded e) := by
  unfold Guarded
  split <;> infer_instance

/-! ### Steps -/

variable {s' : Session U}

/-- The answer to a request keeps the main tabs gated exactly when it is guarded. -/
theorem gated_answered (hrunning : s.running = true) (hs : s.Gated) {user : Option U} {request : AuthRequest U}
    (h : s.answered user signsOut request = some s') :
    s'.Gated ↔ s.GuardedAnswer user signsOut request := by
  cases request with
  | signUp number =>
    cases user with
    | none =>
      obtain rfl := Option.some.inj h
      simpa [GuardedAnswer] using hs
    | some u =>
      simp only [answered] at h
      split at h
      · obtain rfl := Option.some.inj h
        have hverified : isEmailVerified (userCreationComplete { s with
            accounts := Function.update s.accounts u (some false), currentUser := some u } number) =
            some false := by
          rw [userCreationComplete_isEmailVerified]
          simp [isEmailVerified]
        rw [gated_iff_of_some (by rwa [userCreationComplete_running]) hverified, Ne,
          userCreationComplete_cover]
        simp [GuardedAnswer]
      · contradiction
  | login number =>
    cases user with
    | none =>
      obtain rfl := Option.some.inj h
      simpa [GuardedAnswer] using hs
    | some u =>
      simp only [answered] at h
      split at h
      · next hknown =>
        obtain rfl := Option.some.inj h
        obtain ⟨verified, hverified⟩ := Option.ne_none_iff_exists'.mp hknown
        have hsigned : isEmailVerified { s with currentUser := some u } = some verified := hverified
        rw [gated_loginComplete (s := { s with currentUser := some u }) hrunning hsigned]
        cases verified <;> simp [GuardedAnswer, hverified]
      · contradiction
  | resend number =>
    cases user with
    | none =>
      obtain rfl := Option.some.inj h
      simpa [GuardedAnswer] using hs
    | some u =>
      simp only [answered] at h
      split at h
      · next hknown =>
        obtain rfl := Option.some.inj h
        obtain ⟨verified, hverified⟩ := Option.ne_none_iff_exists'.mp hknown
        have hsigned : isEmailVerified { s with
            currentUser := some u, pending := s.pending ++ [.sendEmailVerification number] } =
            some verified := hverified
        refine (gated_iff_of_some (by exact hrunning) hsigned).trans ?_
        cases verified <;> simp [GuardedAnswer, hverified]
      · contradiction
  | sendEmailVerification number =>
    obtain rfl := Option.some.inj h
    rw [setVerificationCodeBtn_gated]
    cases signsOut with
    | false => simpa [signOut, GuardedAnswer] using hs
    | true =>
      rw [gated_iff_of_none (s := s.signOut true) hrunning rfl]
      simp [signOut, GuardedAnswer]
  | delete u =>
    refine iff_of_true ?_ trivial
    cases user with
    | none =>
      obtain rfl := Option.some.inj h
      exact hs
    | some v =>
      obtain rfl := Option.some.inj h
      exact gated_of_cover (presentLogin_cover _)

/-- An event while the app is running keeps the main tabs gated exactly when it is guarded. -/
theorem gated_act (hrunning : s.running = true) (hs : s.Gated) {e : SessionEvent U}
    (h : s.act e = some s') : s'.Gated ↔ s.Guarded e := by
  cases e with
  | launch => contradiction
  | verify u => contradiction
  | kill =>
    obtain rfl := Option.some.inj h
    exact iff_of_true (fun hstopped => by contradiction) trivial
  | loginDidAppear =>
    simp only [act] at h
    split at h
    · next number hcover =>
      obtain rfl := Option.some.inj h
      exact gated_loginDidAppear hrunning rfl
    · contradiction
  | loginTextDidChange =>
    obtain rfl := Option.some.inj h
    exact iff_of_true hs trivial
  | showCreateAccount =>
    simp only [act] at h
    split at h
    · obtain rfl := Option.some.inj h
      exact iff_of_true (gated_of_cover (by simp)) trivial
    · contradiction
  | signUpBtnWasPressed =>
    simp only [act] at h
    split at h
    · obtain rfl := Option.some.inj h
      exact iff_of_true hs trivial
    · contradiction
  | closeBtnWasPressed =>
    simp only [act] at h
    split at h
    · obtain rfl := Option.some.inj h
      exact iff_of_true (gated_of_cover (by simp)) trivial
    · contradiction
  | verificationAction signsOut =>
    simp only [act] at h
    split at h
    · obtain rfl := Option.some.inj h
      refine iff_of_true (gated_of_cover ?_) trivial
      split <;> simp
    · contradiction
  | loginBtnWasPressed =>
    simp only [act] at h
    split at h
    · obtain rfl := Option.some.inj h
      exact iff_of_true hs trivial
    · contradiction
  | verificationCodeBtnWasPressed =>
    simp only [act] at h
    split at h
    · obtain rfl := Option.some.inj h
      exact iff_of_true hs trivial
    · contradiction
  | logoutBtnPressed signsOut =>
    simp only [act] at h
    split at h
    · obtain rfl := Option.some.inj h
      refine iff_of_true ?_ trivial
      split
      · exact gated_of_cover (presentLogin_cover _)
      · exact hs
    · contradiction
  | deleteAcntBtnWasPressed =>
    simp only [act] at h
    split at h
    · obtain rfl := Option.some.inj h
      refine iff_of_true ?_ trivial
      split
      · exact hs
      · exact hs
    · contradiction
  | answer index user signsOut =>
    obtain ⟨request, hrequest, hanswer⟩ := Option.bind_eq_some_iff.mp h
    have hpending : Gated { s with pending := s.pending.eraseIdx index } := hs
    have hiff := gated_answered (s := { s with pending := s.pending.eraseIdx index }) hrunning hpending hanswer
    rw [hiff]
    simp only [Guarded, hrequest, Option.mem_some_iff, forall_eq']
    cases request <;> rfl

/-- An event keeps the main tabs gated exactly when it is guarded. -/
theorem gated_step (hs : s.Gated) {e : SessionEvent U} (h : s.step e = some s') :
    s'.Gated ↔ s.Guarded e := by
  have hact (hact : (if s.running then s.act e else none) = some s') : s'.Gated ↔ s.Guarded e := by
    split at hact
    · next hrunning => exact gated_act hrunning hs hact
    · contradiction
  cases e with
  | launch =>
    simp only [step] at h
    split at h
    · contradiction
    · obtain rfl := Option.some.inj h
      exact gated_didFinishLaunching rfl rfl
  | verify u =>
    obtain ⟨verified, hverified, rfl⟩ := Option.map_eq_some_iff.mp h
    refine iff_of_true (fun hrunning htabs => ?_) trivial
    have hbefore := hs hrunning htabs
    obtain ⟨v, hv, hemail⟩ := Option.bind_eq_some_iff.mp hbefore
    simp only [isEmailVerified]
    rw [hv, Option.bind_some, Function.update_apply]
    split
    · rfl
    · exact hemail
  | _ => exact hact h

/-- From a state in which the app is not running, and for any accounts and any user that is still
signed in: the main tabs are only shown to a user whose email is verified, all along a list of
events, exactly when every event is guarded. -/
theorem verification_gate {start : Session U} (hstart : start.running = false)
    (events : List (SessionEvent U)) :
    Machine.Always step Gated start events ↔ Machine.Throughout step Guarded start events := by
  have hgated : start.Gated := fun hrunning => by
    rw [hstart] at hrunning
    contradiction
  exact Machine.always_iff_throughout (I := fun _ => True)
    (fun _ _ _ _ hs hstep => ⟨trivial, gated_step hs hstep⟩) events trivial hgated

/-- A device on which nobody has signed in. -/
def firstStart (accounts : U → Option Bool) : Session U where
  accounts := accounts
  currentUser := none
  running := false
  cover := .tabs
  verificationCodeBtn := false
  pending := []
  created := 0

/-- Signing up, verifying the email, and logging in. -/
def verifiedLogin (user : U) : List (SessionEvent U) :=
  [.launch, .loginDidAppear, .showCreateAccount, .signUpBtnWasPressed, .answer 0 (some user) true,
    .verificationAction true, .loginDidAppear, .verify user, .loginBtnWasPressed,
    .answer 0 (some user) true]

/-- The email is verified before the login that shows the main tabs. -/
theorem verification_gate_verifiedLogin :
    Machine.Always step Gated (firstStart fun _ : Key => none) (verifiedLogin Sample.uidA) :=
  (verification_gate rfl _).mpr (by decide)

/-- A user that has just signed up is signed in; when the process is killed now, the next launch
shows the main tabs. -/
theorem not_verification_gate :
    ¬ ∀ events : List (SessionEvent Key), Machine.Always step Gated (firstStart fun _ => none) events := by
  intro hclaim
  have hkilled := hclaim [.launch, .loginDidAppear, .showCreateAccount, .signUpBtnWasPressed,
    .answer 0 (some Sample.uidA) true, .kill, .launch]
  exact absurd hkilled (by decide)

end Session

end GroceryListApp

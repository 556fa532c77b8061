import Mathlib.Logic.Basic

/-!
# What holds all along the events of a machine

A machine takes events one after the other, those it can take in its state. A property of states
holds all along a list of events when it holds in every state on the way, and the events are
allowed all along when each of them is in the state it is taken in. The two agree where, of two
successive states, the second has the property exactly when the event between them was allowed.
-/

namespace GroceryListApp.Realtime.Machine

variable {S E : Type*}

/-- The property holds in every state on the way. An event that cannot be taken ends the way. -/
def Always (step : S → E → Option S) (P : S → Prop) : S → List E → Prop
  | s, [] => P s
  | s, e :: events => P s ∧ ∀ next ∈ step s e, Always step P next events

/-- Every event that is taken on the way is allowed in the state it is taken in. -/
def Throughout (step : S → E → Option S) (allowed : S → E → Prop) : S → List E → Prop
  | _, [] => True
  | s, e :: events => ∀ next ∈ step s e, allowed s e ∧ Throughout step allowed next events

/-- Events that are allowed all along are allowed all along by what this implies. -/
theorem Throughout.imp {step : S → E → Option S} {allowed allowed' : S → E → Prop}
    (himp : ∀ s e, allowed s e → allowed' s e) {events : List E} {s : S}
    (h : Throughout step allowed s events) : Throughout step allowed' s events := by
  induction events generalizing s with
  | nil => trivial
  | cons e events ih =>
    exact fun next hnext => ⟨himp s e (h next hnext).1, ih (h next hnext).2⟩

/-- The machine that takes only events that are in order. -/
def only (inOrder : S → E → Prop) [∀ s e, Decidable (inOrder s e)] (step : S → E → Option S) (s : S)
    (e : E) : Option S :=
  if inOrder s e then step s e else none

/-- An event that such a machine takes is in order. -/
theorem of_only_eq_some {inOrder : S → E → Prop} [∀ s e, Decidable (inOrder s e)]
    {step : S → E → Option S} {s next : S} {e : E} (h : only inOrder step s e = some next) :
    inOrder s e ∧ step s e = some next := by
  unfold only at h
  split at h
  · next horder => exact ⟨horder, h⟩
  · contradiction

instance decidableAlways {step : S → E → Option S} {P : S → Prop} [DecidablePred P] :
    (s : S) → (events : List E) → Decidable (Always step P s events)
  | s, [] => inferInstanceAs (Decidable (P s))
  | s, e :: events =>
    have : DecidablePred fun next => Always step P next events := fun next => decidableAlways next events
    inferInstanceAs (Decidable (P s ∧ ∀ next ∈ step s e, Always step P next events))

instance decidableThroughout {step : S → E → Option S} {allowed : S → E → Prop}
    [∀ s e, Decidable (allowed s e)] :
    (s : S) → (events : List E) → Decidable (Throughout step allowed s events)
  | _, [] => inferInstanceAs (Decidable True)
  | s, e :: events =>
    have : DecidablePred fun next => Throughout step allowed next events :=
      fun next => decidableThroughout next events
    inferInstanceAs (Decidable (∀ next ∈ step s e, allowed s e ∧ Throughout step allowed next events))

/-- A property that holds all along holds where the events lead to. -/
theorem Always.of_foldlM {step : S → E → Option S} {P : S → Prop} {events : List E} {s last : S}
    (h : Always step P s events) (hlast : events.foldlM step s = some last) : P last := by
  induction events generalizing s with
  | nil => exact Option.some.inj hlast ▸ h
  | cons e events ih =>
    rw [List.foldlM_cons] at hlast
    obtain ⟨next, hnext, hrest⟩ := Option.bind_eq_some_iff.mp hlast
    exact ih (h.2 next hnext) hrest

/-- What follows from two properties holds all along when both do. -/
theorem Always.both {step : S → E → Option S} {P Q R : S → Prop} (hR : ∀ s, P s → Q s → R s)
    {events : List E} {s : S} (h : Always step P s events) (h' : Always step Q s events) :
    Always step R s events := by
  induction events generalizing s with
  | nil => exact hR s h h'
  | cons e events ih => exact ⟨hR s h.1 h'.1, fun next hnext => ih (h.2 next hnext) (h'.2 next hnext)⟩

/-- What an invariant implies holds all along when every event that is allowed keeps the invariant. -/
theorem always_of_throughout {step : S → E → Option S} {I P : S → Prop} {allowed : S → E → Prop}
    (hP : ∀ s, I s → P s) (hstep : ∀ s e next, I s → allowed s e → step s e = some next → I next)
    {events : List E} {s : S} (hinv : I s) (h : Throughout step allowed s events) :
    Always step P s events := by
  induction events generalizing s with
  | nil => exact hP s hinv
  | cons e events ih =>
    refine ⟨hP s hinv, fun next hnext => ?_⟩
    obtain ⟨hallowed, hrest⟩ := h next hnext
    exact ih (hstep s e next hinv hallowed hnext) hrest

/-- What an invariant implies holds all along when every event keeps the invariant. -/
theorem always_of_invariant {step : S → E → Option S} {I P : S → Prop} (hP : ∀ s, I s → P s)
    (hstep : ∀ s e next, I s → step s e = some next → I next) (events : List E) {s : S} (hinv : I s) :
    Always step P s events := by
  induction events generalizing s with
  | nil => exact hP s hinv
  | cons e events ih => exact ⟨hP s hinv, fun next hnext => ih (hstep s e next hinv hnext)⟩

/-- A property holds all along exactly when every event is allowed, if an invariant makes the events
that are allowed those that keep the property, of the events that are regular. -/
theorem always_iff_throughout_of {step : S → E → Option S} {I P : S → Prop}
    {allowed regular : S → E → Prop}
    (hstep : ∀ s e next, I s → P s → regular s e → step s e = some next →
      I next ∧ (P next ↔ allowed s e))
    (events : List E) {s : S} (hinv : I s) (hs : P s) (hregular : Throughout step regular s events) :
    Always step P s events ↔ Throughout step allowed s events := by
  induction events generalizing s with
  | nil => exact iff_of_true hs trivial
  | cons e events ih =>
    constructor
    · intro halways next hnext
      obtain ⟨hthis, hothers⟩ := hregular next hnext
      obtain ⟨hinv', hiff⟩ := hstep s e next hinv hs hthis hnext
      have hrest := halways.2 next hnext
      have hnow : P next := by
        cases events with
        | nil => exact hrest
        | cons e' events => exact hrest.1
      exact ⟨hiff.mp hnow, (ih hinv' hnow hothers).mp hrest⟩
    · intro hthroughout
      refine ⟨hs, fun next hnext => ?_⟩
      obtain ⟨hthis, hothers⟩ := hregular next hnext
      obtain ⟨hallowed, hrest⟩ := hthroughout next hnext
      obtain ⟨hinv', hiff⟩ := hstep s e next hinv hs hthis hnext
      exact (ih hinv' (hiff.mpr hallowed) hothers).mpr hrest

/-- Events that are allowed whatever they are are allowed all along. -/
theorem throughout_of_forall {step : S → E → Option S} {allowed : S → E → Prop}
    (h : ∀ s e, allowed s e) (s : S) (events : List E) : Throughout step allowed s events := by
  induction events generalizing s with
  | nil => trivial
  | cons e events ih => exact fun next _ => ⟨h s e, ih next⟩

/-- The same where every event is regular. -/
theorem always_iff_throughout {step : S → E → Option S} {I P : S → Prop} {allowed : S → E → Prop}
    (hstep : ∀ s e next, I s → P s → step s e = some next → I next ∧ (P next ↔ allowed s e))
    (events : List E) {s : S} (hinv : I s) (hs : P s) :
    Always step P s events ↔ Throughout step allowed s events := by
  have hregular : Throughout step (fun _ _ => True) s events :=
    throughout_of_forall (fun _ _ => trivial) s events
  exact always_iff_throughout_of (fun s e next hinv hP _ hnext => hstep s e next hinv hP hnext) events hinv hs
    hregular

/-- The operations that the events taken on the way stand for, in an abstract model of the machine. -/
def operations {O : Type*} (step : S → E → Option S) (op : S → E → Option O) : S → List E → List O
  | _, [] => []
  | s, e :: events =>
    match step s e with
    | none => []
    | some next => (op s e).toList ++ operations step op next events

/-- A machine refines an abstract model when each event that is allowed changes what a state stands for
as the operation of the event does, or leaves it where the event has none. -/
theorem refines {O A : Type*} {step : S → E → Option S} {op : S → E → Option O} {I : S → Prop}
    {allowed : S → E → Prop} {abs : S → A} {change : A → O → A}
    (hstep : ∀ s e next, I s → allowed s e → step s e = some next →
      I next ∧ abs next = (op s e).toList.foldl change (abs s))
    {events : List E} {s last : S} (hinv : I s) (h : Throughout step allowed s events)
    (hlast : events.foldlM step s = some last) :
    I last ∧ abs last = (operations step op s events).foldl change (abs s) := by
  induction events generalizing s with
  | nil => exact Option.some.inj hlast ▸ ⟨hinv, rfl⟩
  | cons e events ih =>
    rw [List.foldlM_cons] at hlast
    obtain ⟨next, hnext, hrest⟩ := Option.bind_eq_some_iff.mp hlast
    obtain ⟨hallowed, hthroughout⟩ := h next hnext
    obtain ⟨hinv', habs⟩ := hstep s e next hinv hallowed hnext
    obtain ⟨hinv'', habs'⟩ := ih hinv' hthroughout hrest
    refine ⟨hinv'', ?_⟩
    rw [habs', habs, operations, hnext, List.foldl_append]

end GroceryListApp.Realtime.Machine

import GroceryListApp.Realtime.Store

/-!
# Programs that read through callbacks

A client function runs its statements in order. A write is one atomic change at its
location. A read only registers a callback: the function goes on, and the callback runs
later, on a snapshot taken at that time. The variables a callback shares with the function
that registered it, or with the screen, are a memory that statements inspect and modify.

A failed forced cast, an unwrapped `nil` and an exception all end in `trap`.
-/

namespace GroceryListApp.Realtime

variable {M V : Type*}

/-- One atomic change of the database. -/
inductive Write (V : Type*) where
  | update (location : Path) (entries : List (Path × Store V))
  | remove (location : Path)

/-- The database after a change. -/
def Write.apply : Write V → Store V → Store V
  | .update p entries, s => entries.foldl (fun s entry => s.put (p ++ entry.1) entry.2) s
  | .remove p, s => s.remove p

/-- Where a change takes place. -/
def Write.location : Write V → Path
  | .update p _ => p
  | .remove p => p

/-- A change below a location does not reach what lies apart from it. -/
theorem get_apply_of_apart {w : Write V} {q : Path} (h : Apart w.location q) (s : Store V) :
    (w.apply s).get q = s.get q := by
  cases w with
  | remove p => exact (Store.get_remove s p q).trans (if_neg h.1)
  | update p entries =>
    replace h : Apart p q := h
    simp only [Write.apply]
    induction entries generalizing s with
    | nil => rfl
    | cons entry rest ih =>
      rw [List.foldl_cons, ih, Store.get_put_of_apart _ (h.append_left entry.1)]

/-- An update leaves what lies apart from all its entries alone. -/
theorem get_update_of_apart {p q : Path} {entries : List (Path × Store V)}
    (h : ∀ entry ∈ entries, Apart (p ++ entry.1) q) (s : Store V) :
    ((Write.update p entries).apply s).get q = s.get q := by
  simp only [Write.apply]
  induction entries generalizing s with
  | nil => rfl
  | cons entry rest ih =>
    rw [List.foldl_cons, ih fun other hother => h other (List.mem_cons_of_mem _ hother)]
    exact Store.get_put_of_apart s (h entry List.mem_cons_self) entry.2

/-- After an update of entries apart from each other, each of them is stored. -/
theorem get_update_of_mem {entries : List (Path × Store V)}
    (hapart : entries.Pairwise fun a b => Apart a.1 b.1) {entry : Path × Store V}
    (hentry : entry ∈ entries) (p r : Path) (s : Store V) :
    ((Write.update p entries).apply s).get (p ++ entry.1 ++ r) = entry.2.get r := by
  simp only [Write.apply]
  induction entries generalizing s with
  | nil => simp at hentry
  | cons first rest ih =>
    rw [List.foldl_cons]
    rcases List.mem_cons.mp hentry with rfl | hentry
    · have hlater : ∀ other ∈ rest, Apart (p ++ other.1) (p ++ entry.1 ++ r) := by
        intro other hother
        rw [List.append_assoc, apart_append_left]
        exact ((List.pairwise_cons.mp hapart).1 other hother).append_left r |>.symm
      have := get_update_of_apart hlater (s.put (p ++ entry.1) entry.2)
      simp only [Write.apply] at this
      rw [this, Store.get_put, if_pos (List.prefix_append _ _), List.drop_left]
    · exact ih (List.pairwise_cons.mp hapart).2 hentry _

/-- An update of one entry with a value stores it there. -/
theorem get_update_leaf (p q : Path) (v : V) (s : Store V) :
    ((Write.update p [(q, .leaf v)]).apply s).get (p ++ q) = some v := by
  simp [Write.apply, Store.get_put]

/-- What is stored after an update was written by it or was stored before. -/
theorem of_get_update {p q : Path} {entries : List (Path × Store V)} {s : Store V} {v : V}
    (h : ((Write.update p entries).apply s).get q = some v) :
    (∃ entry ∈ entries, p ++ entry.1 <+: q) ∨ s.get q = some v := by
  simp only [Write.apply] at h
  induction entries generalizing s with
  | nil => exact Or.inr h
  | cons entry rest ih =>
    rw [List.foldl_cons] at h
    rcases ih h with ⟨other, hother, hbelow⟩ | hput
    · exact Or.inl ⟨other, List.mem_cons_of_mem _ hother, hbelow⟩
    · rw [Store.get_put] at hput
      split at hput
      · next hbelow => exact Or.inl ⟨entry, List.mem_cons_self, hbelow⟩
      · split at hput
        · contradiction
        · exact Or.inr hput

/-- What is stored after an update of single values is one of them at its place, or was stored before. -/
theorem of_get_update_leaves {p q : Path} {entries : List (Path × V)} {s : Store V} {v : V}
    (h : ((Write.update p (entries.map fun entry => (entry.1, .leaf entry.2))).apply s).get q = some v) :
    (∃ entry ∈ entries, q = p ++ entry.1 ∧ v = entry.2) ∨ s.get q = some v := by
  simp only [Write.apply] at h
  induction entries generalizing s with
  | nil => exact Or.inr h
  | cons entry rest ih =>
    rw [List.map_cons, List.foldl_cons] at h
    rcases ih h with ⟨other, hother, hvalue⟩ | hput
    · exact Or.inl ⟨other, List.mem_cons_of_mem _ hother, hvalue⟩
    · rw [Store.get_put] at hput
      split at hput
      · next hbelow =>
        obtain ⟨rest, rfl⟩ := hbelow
        rw [List.drop_left, Store.get_leaf] at hput
        split at hput
        · next hrest =>
          subst hrest
          exact Or.inl ⟨entry, List.mem_cons_self, List.append_nil _, (Option.some.inj hput).symm⟩
        · contradiction
      · split at hput
        · contradiction
        · exact Or.inr hput

/-- What a read delivers: the location's own key and the tree below it. -/
structure Snapshot (V : Type*) where
  key : String
  node : Store V

/-- The snapshot of a location. -/
def Store.snapshot (s : Store V) (p : Path) : Snapshot V :=
  ⟨(p.getLast?.map Subtype.val).getD "", s.sub p⟩

namespace Snapshot

/-- The value of a snapshot that is a leaf. -/
def value (snapshot : Snapshot V) : Option V := snapshot.node.get []

/-- The snapshot of a location below. -/
def childSnapshot (snapshot : Snapshot V) (name : String) : Snapshot V :=
  ⟨name, ((parsePath name).map snapshot.node.sub).getD .empty⟩

/-- The snapshots of all children, in database order. -/
def children (snapshot : Snapshot V) : List (Snapshot V) :=
  (snapshot.node.children []).map fun key => ⟨key.1, snapshot.node.sub [key]⟩

/-- The child snapshots of a location, by the keys stored there. -/
@[simp] theorem children_snapshot (s : Store V) (p : Path) :
    (s.snapshot p).children = (s.children p).map fun key => ⟨key.1, (s.sub p).sub [key]⟩ := by
  simp [children, Store.snapshot]

/-- The value at a location below a child snapshot. -/
theorem value_childSnapshot_child (s : Store V) (p q : Path) (key : Key) {name : String}
    (h : parsePath name = some q) :
    (childSnapshot ⟨key.1, (s.sub p).sub [key]⟩ name).value = s.get (p ++ key :: q) := by
  simp [value, childSnapshot, h]

end Snapshot

/-- What remains to be run of a function or of a callback. -/
inductive Prog (M V : Type*) where
  | done
  | trap
  | write (change : Write V) (next : Prog M V)
  | observe (location : Path) (callback : Snapshot V → Prog M V) (next : Prog M V)
  | inspect (next : M → Prog M V)
  | modify (change : M → M) (next : Prog M V)

namespace Prog

/-- Run a second program when the statements of the first are through. -/
def seq : Prog M V → Prog M V → Prog M V
  | done, q => q
  | trap, _ => trap
  | write w next, q => write w (next.seq q)
  | observe p callback next, q => observe p callback (next.seq q)
  | inspect next, q => inspect fun m => (next m).seq q
  | modify f next, q => modify f (next.seq q)

/-- Run statements one after the other. -/
def block : List (Prog M V) → Prog M V
  | [] => done
  | p :: rest => p.seq (block rest)

/-- Run a body for every element of a list. -/
def forEach {α : Type*} (values : List α) (body : α → Prog M V) : Prog M V :=
  block (values.map body)

/-- Continue with a value that a forced cast or an unwrapping produced. -/
def force {α : Type*} (value : Option α) (next : α → Prog M V) : Prog M V :=
  match value with
  | some a => next a
  | none => trap

/-- The program a read's callback turns into when it is answered. -/
def answer (db : Store V) : Prog M V → Prog M V
  | observe p callback _ => callback (db.snapshot p)
  | p => p

/-- No statement of the program itself traps. -/
def Steady : Prog M V → Prop
  | done => True
  | trap => False
  | write _ next => Steady next
  | observe _ _ next => Steady next
  | inspect next => ∀ m, Steady (next m)
  | modify _ next => Steady next

@[simp] theorem done_seq (q : Prog M V) : done.seq q = q := rfl

@[simp] theorem trap_seq (q : Prog M V) : trap.seq q = trap := rfl

@[simp] theorem write_seq (w : Write V) (next q : Prog M V) :
    (write w next).seq q = write w (next.seq q) := rfl

@[simp] theorem observe_seq (p : Path) (callback : Snapshot V → Prog M V) (next q : Prog M V) :
    (observe p callback next).seq q = observe p callback (next.seq q) := rfl

@[simp] theorem inspect_seq (next : M → Prog M V) (q : Prog M V) :
    (inspect next).seq q = inspect fun m => (next m).seq q := rfl

@[simp] theorem modify_seq (f : M → M) (next q : Prog M V) :
    (modify f next).seq q = modify f (next.seq q) := rfl

@[simp] theorem seq_done (p : Prog M V) : p.seq done = p := by
  induction p with
  | done => rfl
  | trap => rfl
  | write w next ih => rw [write_seq, ih]
  | observe p callback next _ ih => rw [observe_seq, ih]
  | inspect next ih => simp only [inspect_seq, ih]
  | modify f next ih => rw [modify_seq, ih]

@[simp] theorem block_nil : block ([] : List (Prog M V)) = done := rfl

@[simp] theorem block_cons (p : Prog M V) (rest : List (Prog M V)) :
    block (p :: rest) = p.seq (block rest) := rfl

@[simp] theorem force_some {α : Type*} (a : α) (next : α → Prog M V) :
    force (some a) next = next a := rfl

@[simp] theorem force_none {α : Type*} (next : α → Prog M V) : force none next = trap := rfl

/-- A sequence of two programs does not trap when neither does. -/
theorem Steady.seq {p q : Prog M V} (hp : p.Steady) (hq : q.Steady) : (p.seq q).Steady := by
  induction p with
  | done => exact hq
  | trap => exact hp
  | write w next ih => exact ih hp
  | observe p callback next _ ih => exact ih hp
  | inspect next ih => exact fun m => ih m (hp m)
  | modify f next ih => exact ih hp

/-- A loop does not trap when no round does. -/
theorem steady_forEach {α : Type*} {values : List α} {body : α → Prog M V}
    (h : ∀ a ∈ values, (body a).Steady) : (forEach values body).Steady := by
  induction values with
  | nil => trivial
  | cons a rest ih =>
    exact (h a List.mem_cons_self).seq (ih fun b hb => h b (List.mem_cons_of_mem _ hb))

end Prog

/-- A database reference; `none` when a path string on the way raised an exception. -/
abbrev Ref := Option Path

namespace Ref

/-- The reference to a slash-separated location below a reference. -/
def child (ref : Ref) (name : String) : Ref :=
  ref.bind fun p => (parsePath name).map (p ++ ·)

/-- The reference to a new child under a key drawn by the client. -/
def childByAutoId (ref : Ref) (autoId : Key) : Ref :=
  ref.map (· ++ [autoId])

/-- Write all entries in one atomic step. -/
def updateChildValues (ref : Ref) (values : List (String × Store V)) : Prog M V :=
  .force ref fun p =>
    .force (values.mapM fun entry => (parsePath entry.1).map fun key => (key, entry.2))
      fun entries => .write (.update p entries) .done

/-- Remove the node with everything below it. -/
def removeValue (ref : Ref) : Prog M V :=
  .force ref fun p => .write (.remove p) .done

/-- Ask for one snapshot of the location. -/
def observeSingleEvent (ref : Ref) (callback : Snapshot V → Prog M V) : Prog M V :=
  .force ref fun p => .observe p callback .done

/-- A key refers to the child of that name. -/
@[simp] theorem child_key (p : Path) (key : Key) : child (some p) key.1 = some (p ++ [key]) := by
  simp [child]

end Ref

/-- A dictionary as a tree; `none` is the exception raised on a key that is not legal. -/
def Store.dictionary (entries : List (String × V)) : Option (Store V) :=
  if distinct : (entries.map Prod.fst).Nodup then
    if legal : ∀ entry ∈ entries, LegalKey entry.1 then
      some ⟨entries.attach.map fun entry => ([⟨entry.1.1, legal entry.1 entry.2⟩], entry.1.2), by
        refine List.pairwise_map.mpr ?_
        have hdistinct : (entries.attach.map Subtype.val).Pairwise fun a b => a.1 ≠ b.1 := by
          rw [List.attach_map_subtype_val]
          exact List.pairwise_map.mp distinct
        exact (List.pairwise_map.mp hdistinct).imp fun hne =>
          apart_of_ne (fun h => hne (congrArg Subtype.val h)) [] []⟩
    else none
  else none

/-- A dictionary is a tree when its keys are different and legal. -/
theorem Store.isSome_dictionary_iff (entries : List (String × V)) :
    (dictionary entries).isSome ↔
      (entries.map Prod.fst).Nodup ∧ ∀ entry ∈ entries, LegalKey entry.1 := by
  unfold dictionary
  by_cases hdistinct : (entries.map Prod.fst).Nodup
  · by_cases hlegal : ∀ entry ∈ entries, LegalKey entry.1
    · rw [dif_pos hdistinct, dif_pos hlegal]
      exact iff_of_true rfl ⟨hdistinct, hlegal⟩
    · rw [dif_pos hdistinct, dif_neg hlegal]
      exact iff_of_false Bool.false_ne_true fun h => hlegal h.2
  · rw [dif_neg hdistinct]
    exact iff_of_false Bool.false_ne_true fun h => hdistinct h.1

/-- Every entry of a dictionary is a child of the tree. -/
theorem Store.get_dictionary {entries : List (String × V)} {d : Store V}
    (h : dictionary entries = some d) {entry : String × V} (hentry : entry ∈ entries) :
    ∃ key : Key, key.1 = entry.1 ∧ d.get [key] = some entry.2 := by
  unfold dictionary at h
  split at h
  · split at h
    · next _ hlegal =>
      simp only [Option.some.injEq] at h
      subst h
      refine ⟨⟨entry.1, hlegal entry hentry⟩, rfl, (Store.get_eq_some_iff _ _ _).mpr ?_⟩
      exact List.mem_map.mpr ⟨⟨entry, hentry⟩, List.mem_attach _ _, rfl⟩
    · contradiction
  · contradiction

/-- What a dictionary stores is one of its entries. -/
theorem Store.of_get_dictionary {entries : List (String × V)} {d : Store V}
    (h : dictionary entries = some d) {p : Path} {v : V} (hv : d.get p = some v) :
    ∃ key : Key, p = [key] ∧ (key.1, v) ∈ entries := by
  unfold dictionary at h
  split at h
  · split at h
    · simp only [Option.some.injEq] at h
      subst h
      obtain ⟨entry, -, hentry⟩ := List.mem_map.mp ((Store.get_eq_some_iff _ _ _).mp hv)
      obtain ⟨rfl, rfl⟩ := Prod.mk.inj hentry
      exact ⟨_, rfl, entry.2⟩
    · contradiction
  · contradiction

/-- A variable that callbacks share, as part of the memory. -/
structure Var (M α : Type*) where
  get : M → α
  set : α → M → M

end GroceryListApp.Realtime

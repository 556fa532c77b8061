import GroceryListApp.Controller.GroupCalls
import GroceryListApp.Services.ScanDebts

/-!
# Check marks and their authors

An item is checked off and unchecked together with its marker, and a change of username rewrites
the markers that hold the former name, one by one and from snapshots. Such a rewriting agrees with
the check mark when the marker still holds the former name. The scan that rewrites is then what a
checked item with a former name is owed, and nobody else can have or take that name meanwhile.
-/

namespace GroceryListApp

open Realtime

/-- A call that concerns check marks and the names of their authors. -/
inductive MarkCall where
  | markeOffUser (account g item : Key) (username : String)
  | uncheckUser (g item : Key)
  | changeUsername (uid : Key) (profileName newUsername : String)
  deriving DecidableEq

/-- The program of a call. -/
def MarkCall.code : MarkCall → Prog Unit Value
  | .markeOffUser _ g item username => GroceryListApp.markeOffUser g item.1 username
  | .uncheckUser g item => GroceryListApp.uncheckUser g item.1
  | .changeUsername uid profileName newUsername => changeUsernameAction uid profileName newUsername

/-- The database and everything that is pending on check marks and usernames. -/
abbrev MarkSys := Sys MarkCall Unit Value

/-- Whether an item is stored as checked. -/
def storedCheck (db : Store Value) (g k : Key) : Option Bool :=
  asBool (db.snapshot (itemPath g k ++ [Keys.isSelected]))

/-- The marker that is stored for an item. -/
def storedMarker (db : Store Value) (g k : Key) : Option String :=
  asString (db.snapshot (itemPath g k ++ [Keys.markedOffBy]))

/-- An item is checked when its marker is somebody, and not otherwise. -/
def Agrees (db : Store Value) (g k : Key) : Prop :=
  storedCheck db g k = some true ↔ ∃ marker, storedMarker db g k = some marker ∧ marker ≠ "- -"

/-- A change of username does not reach the check marks. -/
theorem storedCheck_update (uid : Key) (new : String) (db : Store Value) (g k : Key) :
    storedCheck ((Write.update [Keys.users, uid] [([Keys.username], str new)]).apply db) g k =
      storedCheck db g k := by
  have happart : Apart [Keys.users, uid] (itemPath g k ++ [Keys.isSelected]) :=
    apart_of_ne (by decide) _ _
  have hget := get_apply_of_apart (w := .update [Keys.users, uid] [([Keys.username], str new)]) happart db
  simp only [storedCheck, asBool, value_snapshot, hget]

/-- A change of username does not reach the markers. -/
theorem storedMarker_update (uid : Key) (new : String) (db : Store Value) (g k : Key) :
    storedMarker ((Write.update [Keys.users, uid] [([Keys.username], str new)]).apply db) g k =
      storedMarker db g k := by
  have happart : Apart [Keys.users, uid] (itemPath g k ++ [Keys.markedOffBy]) :=
    apart_of_ne (by decide) _ _
  have hget := get_apply_of_apart (w := .update [Keys.users, uid] [([Keys.username], str new)]) happart db
  simp only [storedMarker, asString, value_snapshot, hget]

/-- The account whose check-off of an item was written last; `first` says whose it was before. -/
def lastCheckOff (first : Key → Key → Option Key) (past : List (MarkCall × Event Value)) (g k : Key) :
    Option Key :=
  past.foldl (fun author event => match event with
    | (.markeOffUser account g' item _, .wrote w) =>
        if g' = g ∧ item = k ∧ w.location = itemPath g k then some account else author
    | _ => author) (first g k)

/-- Every check mark has an author, whose username is the marker. -/
def Authored (db : Store Value) (author : Key → Key → Option Key) : Prop :=
  ∀ g k, storedCheck db g k = some true → ∃ account marker, author g k = some account ∧
    storedMarker db g k = some marker ∧ storedUsername db account = some marker

/-- The usernames that the screens accept. -/
def ValidUsername (username : String) : Prop := 5 ≤ username.length ∧ ' ' ∉ username.toList

instance : DecidablePred ValidUsername := fun _ => inferInstanceAs (Decidable (_ ∧ _))

/-- No username is the marker of an item that is not checked. -/
theorem ValidUsername.ne_unmarked {username : String} (h : ValidUsername username) :
    username ≠ "- -" := by
  rintro rfl
  exact absurd h (by decide)

/-! ### The schedules -/

/-- Whether the call changes the username of the account. -/
def MarkCall.renames (uid : Key) : MarkCall → Bool
  | .changeUsername uid' _ _ => uid' = uid
  | _ => false

/-- The usernames that the call takes from the screen. -/
def MarkCall.names : MarkCall → List String
  | .markeOffUser _ _ _ username => [username]
  | .uncheckUser _ _ => []
  | .changeUsername _ profileName newUsername => [profileName, newUsername]

/-- The screens accept the names of the calls that are issued. -/
def ValidNames : Act MarkCall → Prop
  | .spawn t => t.names.Forall ValidUsername
  | .run _ => True

/-- The name that the call gives up. -/
def MarkCall.oldName : MarkCall → Option String
  | .changeUsername _ profileName _ => some profileName
  | _ => none

/-- A check-off is written under the stored username. A stored username is overwritten with a name
that nobody has or is giving up, while no other change of the same account is pending. A marker is
overwritten while it holds the former name. -/
def MarksCurrent (s : MarkSys) : Act MarkCall → Prop
  | .spawn _ => True
  | .run i =>
    match s.pool[i]? with
    | some (.markeOffUser account g item username, .run (.write w _)) =>
        w.location = itemPath g item → storedUsername s.db account = some username
    | some (.changeUsername uid profileName newUsername, .run (.write (.update p entries) _)) =>
        (p = [Keys.users, uid] → storedUsername s.db uid = some profileName ∧
          newUsername ∉ storedUsernames s.db ∧
          (∀ task ∈ s.pool, task.1.oldName ≠ some newUsername) ∧
          s.pool.countP (fun task => task.1.renames uid) = 1) ∧
        (entries.map Prod.fst = [[Keys.markedOffBy]] →
          asString (s.db.snapshot (p ++ [Keys.markedOffBy])) = some profileName)
    | _ => True

/-- A step with accepted names that finds names and markers current. -/
def MarkStep (_ : List (MarkCall × Event Value)) (s : MarkSys) (a : Act MarkCall) : Prop :=
  ValidNames a ∧ MarksCurrent s a

instance (a : Act MarkCall) : Decidable (ValidNames a) := by
  unfold ValidNames
  split <;> infer_instance

instance (s : MarkSys) (a : Act MarkCall) : Decidable (MarksCurrent s a) := by
  unfold MarksCurrent
  split
  · infer_instance
  · split <;> infer_instance

instance (past : List (MarkCall × Event Value)) (s : MarkSys) (a : Act MarkCall) :
    Decidable (MarkStep past s a) :=
  inferInstanceAs (Decidable (_ ∧ _))

/-! ### The writes -/

/-- The writes that calls make once the username is changed. -/
inductive MarkWrite (t : MarkCall) : Write Value → Prop
  | check {account g item : Key} {username : String} (ht : t = .markeOffUser account g item username) :
      MarkWrite t (.update (itemPath g item)
        [([Keys.markedOffBy], str username), ([Keys.isSelected], bool true)])
  | uncheck {g item : Key} (ht : t = .uncheckUser g item) :
      MarkWrite t (.update (itemPath g item)
        [([Keys.markedOffBy], str "- -"), ([Keys.isSelected], bool false)])
  | marker {uid : Key} {old new : String} (ht : t = .changeUsername uid old new) (g k : Key) :
      MarkWrite t (.update (itemPath g k) [([Keys.markedOffBy], str new)])
  | beside {w : Write Value}
      (hplain : ∀ account g item username, t = .markeOffUser account g item username →
        w.location ≠ itemPath g item)
      (hnames : ∀ db uid, storedUsername (w.apply db) uid = storedUsername db uid)
      (hchecks : ∀ db g k, storedCheck (w.apply db) g k = storedCheck db g k)
      (hmarkers : ∀ db g k, storedMarker (w.apply db) g k = storedMarker db g k) :
      MarkWrite t w

namespace MarkWrite

variable {t : MarkCall} {w : Write Value} {db : Store Value}

/-- A write that reaches neither usernames nor check marks nor markers. -/
theorem of_apart
    (hplain : ∀ account g item username, t = .markeOffUser account g item username →
      w.location ≠ itemPath g item)
    (husers : ∀ uid, ∀ s : Store Value, (w.apply s).get [Keys.users, uid, Keys.username] =
      s.get [Keys.users, uid, Keys.username])
    (hitems : ∀ g k field, field = Keys.isSelected ∨ field = Keys.markedOffBy → ∀ s : Store Value,
      (w.apply s).get (itemPath g k ++ [field]) = s.get (itemPath g k ++ [field])) :
    MarkWrite t w := by
  refine .beside hplain (fun db uid => ?_) (fun db g k => ?_) fun db g k => ?_
  · simp only [storedUsername, asString, value_snapshot, husers]
  · simp only [storedCheck, asBool, value_snapshot, hitems g k _ (Or.inl rfl)]
  · simp only [storedMarker, asString, value_snapshot, hitems g k _ (Or.inr rfl)]

/-- The index of usernames lies apart from accounts and items. -/
theorem of_usernames {rest : Path} (hw : w.location = Keys.usernames :: rest) : MarkWrite t w := by
  apply of_apart
  · intro account g item username _ hlocation
    rw [hw] at hlocation
    exact absurd (List.cons.inj hlocation).1 (by decide)
  · exact fun uid s => get_apply_of_apart (hw ▸ apart_of_ne (by decide) _ _) s
  · exact fun g k field _ s => get_apply_of_apart (hw ▸ apart_of_ne (by decide) _ _) s

/-- What lies below another key of a group than its list is beside the items. -/
theorem of_group {g key : Key} {rest : Path} (hkey : key ≠ Keys.groceryList)
    (hw : w.location = Keys.groups :: g :: key :: rest) : MarkWrite t w := by
  apply of_apart
  · intro account g' item username _ hlocation
    rw [hw, itemPath] at hlocation
    exact hkey (List.cons.inj (List.cons.inj (List.cons.inj hlocation).2).2).1
  · exact fun uid s => get_apply_of_apart (hw ▸ apart_of_ne (by decide) _ _) s
  · exact fun g' k field _ s => get_apply_of_apart (hw ▸ apart_field _ _ _ hkey _ _) s

/-- Setting another field of a group than its list is beside the items. -/
theorem of_field {g key : Key} (hkey : key ≠ Keys.groceryList) (value : Store Value) :
    MarkWrite t (.update [Keys.groups, g] [([key], value)]) := by
  apply of_apart
  · intro account g' item username _ hlocation
    exact absurd (congrArg List.length hlocation) (by simp [Write.location, itemPath])
  · intro uid s
    exact get_apply_of_apart (w := .update _ _) (apart_of_ne (by decide) _ _) s
  · intro g' k field _ s
    apply get_update_of_apart
    intro entry hentry
    rw [List.mem_singleton.mp hentry]
    exact apart_field _ _ _ hkey _ _

/-- Setting another field of an item is beside its check mark and its marker. -/
theorem of_itemField {uid : Key} {old new : String} (ht : t = .changeUsername uid old new) {g k key : Key}
    (hselected : key ≠ Keys.isSelected) (hmarked : key ≠ Keys.markedOffBy) (value : Store Value) :
    MarkWrite t (.update (itemPath g k) [([key], value)]) := by
  apply of_apart
  · rintro account g' item username rfl
    contradiction
  · intro uid' s
    exact get_apply_of_apart (w := .update _ _) (apart_of_ne (by decide) _ _) s
  · intro g' k' field hfield s
    apply get_update_of_apart
    intro entry hentry
    rw [List.mem_singleton.mp hentry]
    have hne : key ≠ field := by
      rcases hfield with rfl | rfl
      · exact hselected
      · exact hmarked
    exact apart_itemField hne _ _ _ _

/-- The counter functions are beside the items. -/
theorem holds_adjust (t : MarkCall) (g : Key) {field : String} (key : Key)
    (hfield : parsePath field = some [key]) (hkey : key ≠ Keys.groceryList) (delta : ℤ) :
    (Contract.issues MarkWrite).Holds t (adjustCount (REF_GROUPS.child g.1) field delta : Prog Unit Value) := by
  have href : REF_GROUPS.child g.1 = some [Keys.groups, g] := by simp [REF_GROUPS]
  rw [href]
  apply holds_adjustCount hfield
  · exact fun _ _ => Or.inr trivial
  · exact fun _ n _ _ _ => Contract.permits_issues_iff.mpr (of_field hkey _)

/-- What a change of username does after it has changed the username. -/
def afterUsername (uid : Key) (old new : String) : Prog Unit Value :=
  .block [addUsername uid.1 new, deleteFromUsernames old, changeMaster old new,
    changeUsersInGroup old new uid.1, changeMarkedOffBy old new, changeAddedBy old new]

/-- A change of username begins with the write of the username. -/
theorem code_changeUsername (uid : Key) (old new : String) :
    (MarkCall.changeUsername uid old new).code =
      .write (.update [Keys.users, uid] [([Keys.username], str new)]) (afterUsername uid old new) := by
  simp only [MarkCall.code, changeUsernameAction]
  rw [Prog.block_cons, changeUsername_eq, Prog.write_seq, Prog.done_seq]
  rfl

/-- After that, a change of username makes writes of these kinds. -/
theorem holds_afterUsername (uid : Key) (old new : String) :
    (Contract.issues MarkWrite).Holds (.changeUsername uid old new) (afterUsername uid old new) := by
  have hissues {w : Write Value} (hw : MarkWrite (.changeUsername uid old new) w) :
      (Contract.issues MarkWrite).Permits (.changeUsername uid old new) w :=
    Contract.permits_issues_iff.mpr hw
  apply Contract.holds_block
  intro p hp
  simp only [List.mem_cons, List.not_mem_nil, or_false] at hp
  rcases hp with rfl | rfl | rfl | rfl | rfl | rfl
  · rw [addUsername_eq]
    exact Contract.holds_force (fun _ => trivial) fun name _ => ⟨hissues (of_usernames rfl), trivial⟩
  · rw [deleteFromUsernames_eq]
    exact Contract.holds_force (fun _ => trivial) fun name _ => ⟨hissues (of_usernames rfl), trivial⟩
  · apply holds_changeMaster
    · exact fun _ _ _ _ => Or.inr trivial
    · exact fun _ g _ _ => hissues (of_field (by decide) _)
  · apply holds_changeUsersInGroup fun _ => trivial
    · exact fun _ g k _ _ _ => hissues (of_group (by decide) rfl)
    · exact fun _ g k name _ _ _ _ => hissues (of_group (by decide) rfl)
  · apply holds_changeItemField Keys.markedOffBy (by simp)
    · exact fun _ _ _ _ _ => Or.inr trivial
    · exact fun _ g k _ _ => hissues (.marker rfl g k)
  · apply holds_changeItemField Keys.addedBy (by simp)
    · exact fun _ _ _ _ _ => Or.inr trivial
    · exact fun _ g k _ _ => hissues (of_itemField rfl (by decide) (by decide) _)

/-- A check-off or an uncheck makes writes of these kinds; a change of username begins with another. -/
theorem holds_code (t : MarkCall) : (Contract.issues MarkWrite).Holds t t.code ∨
    ∃ uid old new, t = .changeUsername uid old new := by
  have hfield : parsePath "list check count" = some [Keys.groupListCheckCount] := by simp
  have hcheck (g : Key) := holds_adjust t g Keys.groupListCheckCount hfield (by decide)
  cases t with
  | markeOffUser account g item username =>
    left
    simp only [MarkCall.code]
    rw [markeOffUser_eq, parsePath_key]
    exact ⟨Contract.permits_issues_iff.mpr (.check rfl), hcheck g 1⟩
  | uncheckUser g item =>
    left
    simp only [MarkCall.code]
    rw [uncheckUser_eq, parsePath_key]
    exact ⟨Contract.permits_issues_iff.mpr (.uncheck rfl), hcheck g (-1)⟩
  | changeUsername uid old new => exact Or.inr ⟨uid, old, new, rfl⟩

/-- The scan of the markers owes the new name to an item with the old one. -/
theorem owes_afterUsername {uid : Key} {old new : String} (hne : old ≠ new) (g k : Key) :
    (afterUsername uid old new).Owes fun db => storedMarker db g k ≠ some old := by
  refine Prog.owes_block (List.mem_of_getElem? (i := 4) rfl) ?_
  have hfield : parsePath "marked off by" = some [Keys.markedOffBy] := by simp
  apply owes_changeItemField hfield g k
  · intro s hs
    have hold := (asString_eq_some_iff _ _).mp (not_not.mp hs)
    rw [value_snapshot] at hold
    exact hold
  · intro s hold
    have hwritten := get_update_leaf (itemPath g k) [Keys.markedOffBy] (.string new) s
    have hold := (asString_eq_some_iff _ _).mp hold
    rw [value_snapshot] at hold
    exact hne (Value.string.inj (Option.some.inj (hold.symm.trans hwritten)))

/-- No username is changed by these writes. -/
theorem storedUsername_apply (h : MarkWrite t w) (db : Store Value) (uid : Key) :
    storedUsername (w.apply db) uid = storedUsername db uid := by
  have hitem (g k : Key) (entries : List (Path × Store Value)) :
      storedUsername ((Write.update (itemPath g k) entries).apply db) uid = storedUsername db uid :=
    storedUsername_apply_of_root db rfl (by decide) uid
  cases h with
  | check ht => exact hitem _ _ _
  | uncheck ht => exact hitem _ _ _
  | marker ht g k => exact hitem g k _
  | beside _ hnames _ _ => exact hnames db uid

/-- What a write does to an item: nothing, a check-off, an uncheck, or a new marker. -/
theorem effect (h : MarkWrite t w) (db : Store Value) (g k : Key) :
    (storedCheck (w.apply db) g k = storedCheck db g k ∧
      storedMarker (w.apply db) g k = storedMarker db g k ∧
      ∀ account username, t = .markeOffUser account g k username → w.location ≠ itemPath g k) ∨
    (∃ account username, t = .markeOffUser account g k username ∧ w.location = itemPath g k ∧
      storedCheck (w.apply db) g k = some true ∧ storedMarker (w.apply db) g k = some username) ∨
    (t = .uncheckUser g k ∧ storedCheck (w.apply db) g k = some false ∧
      storedMarker (w.apply db) g k = some "- -") ∨
    ∃ uid old new, t = .changeUsername uid old new ∧
      w = .update (itemPath g k) [([Keys.markedOffBy], str new)] ∧
      storedCheck (w.apply db) g k = storedCheck db g k ∧ storedMarker (w.apply db) g k = some new := by
  have hother {g' k' : Key} {entries : List (Path × Store Value)} (hne : itemPath g' k' ≠ itemPath g k) :
      storedCheck ((Write.update (itemPath g' k') entries).apply db) g k = storedCheck db g k ∧
      storedMarker ((Write.update (itemPath g' k') entries).apply db) g k = storedMarker db g k := by
    have hget (field : Key) := get_apply_of_apart (w := .update (itemPath g' k') entries)
      ((apart_itemPath hne).symm.append_left [field]).symm db
    simp only [storedCheck, storedMarker, asBool, asString, value_snapshot, hget, and_self]
  have hboth (marker : String) (flag : Bool) :
      storedCheck ((Write.update (itemPath g k) [([Keys.markedOffBy], str marker),
        ([Keys.isSelected], bool flag)]).apply db) g k = some flag ∧
      storedMarker ((Write.update (itemPath g k) [([Keys.markedOffBy], str marker),
        ([Keys.isSelected], bool flag)]).apply db) g k = some marker := by
    have hget (entry : Path × Store Value) (hentry : entry ∈ [([Keys.markedOffBy], str marker),
        ([Keys.isSelected], bool flag)]) := get_update_of_mem (by simp +decide) hentry (itemPath g k) [] db
    have hcheck := hget ([Keys.isSelected], bool flag) (by simp)
    have hmarker := hget ([Keys.markedOffBy], str marker) (by simp)
    rw [List.append_nil] at hcheck hmarker
    refine ⟨(asBool_eq_some_iff _ _).mpr ?_, (asString_eq_some_iff _ _).mpr ?_⟩
    · rw [value_snapshot, hcheck]
      rfl
    · rw [value_snapshot, hmarker]
      rfl
  cases h with
  | @check account g' item username ht =>
    by_cases hsame : itemPath g' item = itemPath g k
    · obtain ⟨rfl, rfl⟩ : g' = g ∧ item = k := by simpa [itemPath] using hsame
      exact Or.inr (Or.inl ⟨account, username, ht, rfl, hboth username true⟩)
    · exact Or.inl ⟨(hother hsame).1, (hother hsame).2, fun _ _ _ => hsame⟩
  | @uncheck g' item ht =>
    by_cases hsame : itemPath g' item = itemPath g k
    · obtain ⟨rfl, rfl⟩ : g' = g ∧ item = k := by simpa [itemPath] using hsame
      exact Or.inr (Or.inr (Or.inl ⟨ht, hboth "- -" false⟩))
    · exact Or.inl ⟨(hother hsame).1, (hother hsame).2, fun _ _ _ => hsame⟩
  | @marker uid old new ht g' k' =>
    by_cases hsame : itemPath g' k' = itemPath g k
    · obtain ⟨rfl, rfl⟩ : g' = g ∧ k' = k := by simpa [itemPath] using hsame
      refine Or.inr (Or.inr (Or.inr ⟨uid, old, new, ht, rfl, ?_, ?_⟩))
      · simp only [storedCheck, asBool, value_snapshot]
        rw [get_update_of_apart]
        intro entry hentry
        rw [List.mem_singleton.mp hentry]
        exact apart_itemField (by decide) _ _ _ _
      · apply (asString_eq_some_iff _ _).mpr
        rw [value_snapshot]
        exact get_update_leaf _ _ _ _
    · exact Or.inl ⟨(hother hsame).1, (hother hsame).2, fun _ _ _ => hsame⟩
  | beside hplain _ hchecks hmarkers =>
    exact Or.inl ⟨hchecks db g k, hmarkers db g k, fun account username ht => hplain account g k username ht⟩

end MarkWrite

/-! ### The author of a check mark -/

section Author

variable {first : Key → Key → Option Key} {past : List (MarkCall × Event Value)} {g k : Key}

/-- A check-off of the item makes its account the author. -/
theorem lastCheckOff_check {account : Key} {username : String} {w : Write Value}
    (hw : w.location = itemPath g k) :
    lastCheckOff first (past ++ [(MarkCall.markeOffUser account g k username, .wrote w)]) g k = some account := by
  simp [lastCheckOff, hw]

/-- Anything else leaves the author. -/
theorem lastCheckOff_other {event : Option (MarkCall × Event Value)}
    (h : ∀ account username w, event = some (.markeOffUser account g k username, .wrote w) →
      w.location ≠ itemPath g k) :
    lastCheckOff first (past ++ event.toList) g k = lastCheckOff first past g k := by
  rw [lastCheckOff, List.foldl_append, ← lastCheckOff]
  cases event with
  | none => rfl
  | some event =>
    simp only [Option.toList_some, List.foldl_cons, List.foldl_nil]
    split
    · next account g' item username w =>
      refine if_neg ?_
      rintro ⟨rfl, rfl, hw⟩
      exact h account username w rfl hw
    · rfl

end Author

/-! ### Pending changes of usernames -/

/-- The pending body makes writes of these kinds only: if it belongs to a change of username, the
username is changed. -/
def Begun (task : MarkCall × Body Unit Value) : Prop :=
  (Contract.issues MarkWrite).HoldsBody task.1 task.2

/-- A change of username has begun and is pending. -/
def Renamed (pool : List (MarkCall × Body Unit Value)) (uid : Key) (old new : String) : Prop :=
  ∃ task ∈ pool, task.1 = .changeUsername uid old new ∧ Begun task

/-- A change of the account's username is pending that is going to overwrite its former name in the
marker of an item. -/
def Owed (pool : List (MarkCall × Body Unit Value)) (account : Key) (old : String) (g k : Key) : Prop :=
  ∃ new, ∃ task ∈ pool, task.1 = .changeUsername account old new ∧ Begun task ∧
    task.2.Owes fun db => storedMarker db g k ≠ some old

/-- A change of username that is only issued has not begun. -/
theorem not_begun_code (uid : Key) (old new : String) :
    ¬ Begun (.changeUsername uid old new, .run (MarkCall.changeUsername uid old new).code) := by
  intro hbegun
  rw [MarkWrite.code_changeUsername] at hbegun
  have hwrite := Contract.permits_issues_iff.mp hbegun.1
  have hname := hwrite.storedUsername_apply .empty uid
  rw [storedUsername_update] at hname
  exact absurd hname (by simp [storedUsername, asString])

section Pool

variable {s s' : MarkSys} {before after : List (MarkCall × Body Unit Value)} {t : MarkCall}
  {body : Body Unit Value} {rest : List (Body Unit Value)} {db db' : Store Value}

/-- What remains of a body that makes writes of these kinds does so too. -/
theorem Begun.step (h : Begun (t, body)) (hbody : body.step db () = some (db', (), rest)) :
    ∀ b ∈ rest, Begun (t, b) :=
  Contract.HoldsBody.rest h trivial hbody

/-- Running a body that has begun does not let a change of username begin. -/
theorem Renamed.of_run (hbegun : Begun (t, body)) {uid : Key} {old new : String}
    (h : Renamed (before ++ rest.map (t, ·) ++ after) uid old new) :
    Renamed (before ++ (t, body) :: after) uid old new := by
  obtain ⟨task, htask, hcall, htaskbegun⟩ := h
  rcases Sys.mem_rest htask body with hold | ⟨b, hb, rfl⟩
  · exact ⟨task, hold, hcall, htaskbegun⟩
  · exact ⟨(t, body), by simp, hcall, hbegun⟩

/-- What is owed is owed until the marker is another one. -/
theorem Owed.step {account : Key} {old : String} {g k : Key} {a : Act MarkCall}
    (h : Owed s.pool account old g k) (hmarker : storedMarker s.db g k = some old)
    (hmarker' : storedMarker s'.db g k = some old) (hstep : s.step MarkCall.code a = some s') :
    Owed s'.pool account old g k := by
  obtain ⟨new, task, htask, hcall, hbegun, howes⟩ := h
  cases a with
  | spawn t =>
    simp only [Sys.step, Option.some.injEq] at hstep
    subst hstep
    exact ⟨new, task, List.mem_append_left _ htask, hcall, hbegun, howes⟩
  | run i =>
    obtain ⟨before, t, body, after, db, mem, rest, hsplit, -, hbody, rfl⟩ :=
      Sys.step_run_eq_some hstep
    rw [hsplit, List.mem_append, List.mem_cons] at htask
    rcases htask with hbefore | rfl | hafter
    · exact ⟨new, task, by simp [hbefore], hcall, hbegun, howes⟩
    · rcases howes.step (fun hother => hother hmarker) hbody with hpaid | ⟨b, hb, howes⟩
      · exact absurd hmarker' hpaid
      · exact ⟨new, (t, b), by simp [hb], hcall, hbegun.step hbody b hb, howes⟩
    · exact ⟨new, task, by simp [hafter], hcall, hbegun, howes⟩

end Pool

/-! ### Steps -/

/-- Check marks agree with markers, and every check mark has an author whose username the marker is
or is going to be. -/
structure MarkInv (first : Key → Key → Option Key) (past : List (MarkCall × Event Value)) (s : MarkSys) :
    Prop where
  valid : ∀ task ∈ s.pool, task.1.names.Forall ValidUsername
  phases : ∀ task ∈ s.pool, Begun task ∨ ∃ uid old new, task =
    (.changeUsername uid old new, .run (MarkCall.changeUsername uid old new).code)
  distinct : DistinctNames s.db
  renamed : ∀ uid old new, Renamed s.pool uid old new → storedUsername s.db uid = some new ∧
    ∀ other, storedUsername s.db other ≠ some old
  alone : ∀ uid uid' old new new', Renamed s.pool uid old new → Renamed s.pool uid' old new' → uid = uid'
  agrees : ∀ g k, Agrees s.db g k
  author : ∀ g k, storedCheck s.db g k = some true → ∃ account marker,
    lastCheckOff first past g k = some account ∧ storedMarker s.db g k = some marker ∧
    (storedUsername s.db account = some marker ∨ Owed s.pool account marker g k)

namespace MarkInv

variable {first : Key → Key → Option Key} {past : List (MarkCall × Event Value)} {s s' : MarkSys}

/-- Issuing a call. -/
theorem spawn {t : MarkCall} (h : MarkInv first past s) (ha : ValidNames (.spawn t))
    (hstep : s.step MarkCall.code (.spawn t) = some s') : MarkInv first past s' := by
  have hkept {account : Key} {marker : String} {g k : Key} (howed : Owed s.pool account marker g k)
      (hbefore : storedMarker s.db g k = some marker) (hafter : storedMarker s'.db g k = some marker) :
      Owed s'.pool account marker g k := howed.step hbefore hafter hstep
  simp only [Sys.step, Option.some.injEq] at hstep
  subst hstep
  have hrenamed {uid : Key} {old new : String} (hpending : Renamed (s.pool ++ [(t, .run t.code)]) uid old new) :
      Renamed s.pool uid old new := by
    obtain ⟨task, htask, hcall, hbegun⟩ := hpending
    rcases List.mem_append.mp htask with hold | hissued
    · exact ⟨task, hold, hcall, hbegun⟩
    · rw [List.mem_singleton.mp hissued] at hcall hbegun
      subst hcall
      exact absurd hbegun (not_begun_code uid old new)
  constructor
  case valid =>
    intro task htask
    rcases List.mem_append.mp htask with hold | hissued
    · exact h.valid task hold
    · rw [List.mem_singleton.mp hissued]
      exact ha
  case phases =>
    intro task htask
    rcases List.mem_append.mp htask with hold | hissued
    · exact h.phases task hold
    · rw [List.mem_singleton.mp hissued]
      rcases MarkWrite.holds_code t with hbegun | ⟨uid, old, new, rfl⟩
      · exact Or.inl hbegun
      · exact Or.inr ⟨uid, old, new, rfl⟩
  case distinct => exact h.distinct
  case renamed => exact fun uid old new hpending => h.renamed uid old new (hrenamed hpending)
  case alone =>
    exact fun uid uid' old new new' hpending hpending' =>
      h.alone uid uid' old new new' (hrenamed hpending) (hrenamed hpending')
  case agrees => exact h.agrees
  case author =>
    intro g k hchecked
    obtain ⟨account, marker, hauthor, hmarker, hname⟩ := h.author g k hchecked
    exact ⟨account, marker, hauthor, hmarker, hname.imp id fun howed => hkept howed hmarker hmarker⟩

/-- What running a body that has begun does to an item. -/
inductive Outcome (first : Key → Key → Option Key) (past past' : List (MarkCall × Event Value))
    (s s' : MarkSys) (g k : Key) : Prop
  | kept (hcheck : storedCheck s'.db g k = storedCheck s.db g k)
      (hmarker : storedMarker s'.db g k = storedMarker s.db g k)
      (hauthor : lastCheckOff first past' g k = lastCheckOff first past g k)
  | checked {account : Key} {username : String} (hvalid : ValidUsername username)
      (hcheck : storedCheck s'.db g k = some true) (hmarker : storedMarker s'.db g k = some username)
      (hauthor : lastCheckOff first past' g k = some account)
      (hname : storedUsername s.db account = some username)
  | unchecked (hcheck : storedCheck s'.db g k = some false)
      (hmarker : storedMarker s'.db g k = some "- -")
  | renamed {uid : Key} {old new : String} (hold : ValidUsername old) (hnew : ValidUsername new)
      (hpending : Renamed s.pool uid old new) (hbefore : storedMarker s.db g k = some old)
      (hcheck : storedCheck s'.db g k = storedCheck s.db g k)
      (hmarker : storedMarker s'.db g k = some new)
      (hauthor : lastCheckOff first past' g k = lastCheckOff first past g k)

/-- Running a body that has begun changes no username, and has one of these outcomes. -/
theorem outcome {i : ℕ} {t : MarkCall} {body : Body Unit Value} (h : MarkInv first past s)
    (ha : MarksCurrent s (.run i)) (hget : s.pool[i]? = some (t, body)) (hbegun : Begun (t, body))
    (hstep : s.step MarkCall.code (.run i) = some s') :
    (∀ uid, storedUsername s'.db uid = storedUsername s.db uid) ∧
      ∀ g k, Outcome first past (past ++ (s.event (.run i)).toList) s s' g k := by
  obtain ⟨before, t', body', after, db, mem, rest, -, hget', hbody, rfl⟩ := Sys.step_run_eq_some hstep
  obtain ⟨rfl, rfl⟩ := Prod.mk.inj (Option.some.inj (hget'.symm.trans hget))
  have hvalid := h.valid _ (List.mem_of_getElem? hget)
  rcases Body.step_write hbody with ⟨rfl, hnone⟩ | ⟨w, next, rfl, rfl, -⟩
  · refine ⟨fun _ => rfl, fun g k => .kept rfl rfl (lastCheckOff_other fun account username w hevent => ?_)⟩
    obtain ⟨j, next, hj, hwrite⟩ := Sys.event_eq_wrote hevent
    rw [← Act.run.inj hj, hget, Option.some.injEq, Prod.mk.injEq] at hwrite
    exact absurd hwrite.2 (hnone w next)
  · have hw : MarkWrite t' w := Contract.permits_issues_iff.mp hbegun.1
    have hevent : s.event (.run i) = some (t', .wrote w) := by simp [Sys.event, hget, Body.event]
    simp only [MarksCurrent, hget] at ha
    refine ⟨fun uid => hw.storedUsername_apply s.db uid, fun g k => ?_⟩
    rw [hevent]
    rcases hw.effect s.db g k with ⟨hcheck, hmarker, hother⟩ | ⟨account, username, rfl, hlocation, hcheck,
      hmarker⟩ | ⟨rfl, hcheck, hmarker⟩ | ⟨uid, old, new, rfl, rfl, hcheck, hmarker⟩
    · refine .kept hcheck hmarker (lastCheckOff_other fun account username w' hsome => ?_)
      obtain ⟨rfl, hsame⟩ := Prod.mk.inj (Option.some.inj hsome)
      cases hsame
      exact hother account username rfl
    · exact .checked hvalid hcheck hmarker (lastCheckOff_check hlocation) (ha hlocation)
    · exact .unchecked hcheck hmarker
    · have hpending : Renamed s.pool uid old new := ⟨_, List.mem_of_getElem? hget, rfl, hbegun⟩
      refine .renamed hvalid.1 hvalid.2 hpending (ha.2 rfl) hcheck hmarker (lastCheckOff_other ?_)
      intro account username w hsome
      obtain ⟨hcall, -⟩ := Prod.mk.inj (Option.some.inj hsome)
      contradiction

/-- Running a body that has begun. -/
theorem run_begun {i : ℕ} {t : MarkCall} {body : Body Unit Value} (h : MarkInv first past s)
    (ha : MarksCurrent s (.run i)) (hget : s.pool[i]? = some (t, body)) (hbegun : Begun (t, body))
    (hstep : s.step MarkCall.code (.run i) = some s') :
    MarkInv first (past ++ (s.event (.run i)).toList) s' := by
  obtain ⟨hnames, houtcome⟩ := h.outcome ha hget hbegun hstep
  have hkept {account : Key} {marker : String} {g k : Key} (howed : Owed s.pool account marker g k)
      (hbefore : storedMarker s.db g k = some marker) (hafter : storedMarker s'.db g k = some marker) :
      Owed s'.pool account marker g k := howed.step hbefore hafter hstep
  obtain ⟨before, t', body', after, db, mem, rest, hsplit, hget', hbody, rfl⟩ :=
    Sys.step_run_eq_some hstep
  obtain ⟨rfl, rfl⟩ := Prod.mk.inj (Option.some.inj (hget'.symm.trans hget))
  have hrenamed {uid : Key} {old new : String}
      (hpending : Renamed (before ++ rest.map (t', ·) ++ after) uid old new) : Renamed s.pool uid old new := by
    rw [hsplit]
    exact hpending.of_run hbegun
  constructor
  case valid =>
    intro task htask
    have hvalid := h.valid _ (List.mem_of_getElem? hget)
    rcases Sys.mem_rest htask body' with hold | ⟨b, -, rfl⟩
    · exact h.valid task (hsplit ▸ hold)
    · exact hvalid
  case phases =>
    intro task htask
    rcases Sys.mem_rest htask body' with hold | ⟨b, hb, rfl⟩
    · exact h.phases task (hsplit ▸ hold)
    · exact Or.inl (hbegun.step hbody b hb)
  case distinct =>
    intro uid uid' name hname hname'
    exact h.distinct uid uid' name ((hnames uid).symm.trans hname) ((hnames uid').symm.trans hname')
  case renamed =>
    intro uid old new hpending
    obtain ⟨hnew, hold⟩ := h.renamed uid old new (hrenamed hpending)
    exact ⟨(hnames uid).trans hnew, fun other hother => hold other ((hnames other).symm.trans hother)⟩
  case alone =>
    exact fun uid uid' old new new' hpending hpending' =>
      h.alone uid uid' old new new' (hrenamed hpending) (hrenamed hpending')
  case agrees =>
    intro g k
    cases houtcome g k with
    | kept hcheck hmarker _ =>
      rw [Agrees, hcheck, hmarker]
      exact h.agrees g k
    | checked hvalid hcheck hmarker _ _ =>
      exact iff_of_true hcheck ⟨_, hmarker, hvalid.ne_unmarked⟩
    | unchecked hcheck hmarker =>
      rw [Agrees, hcheck, hmarker]
      simp
    | renamed hold hnew _ hbefore hcheck hmarker _ =>
      have hchecked := (h.agrees g k).mpr ⟨_, hbefore, hold.ne_unmarked⟩
      exact iff_of_true (hcheck.trans hchecked) ⟨_, hmarker, hnew.ne_unmarked⟩
  case author =>
    intro g k hchecked
    cases houtcome g k with
    | kept hcheck hmarker hauthor =>
      obtain ⟨account, marker, hbefore, hold, hname⟩ := h.author g k (hcheck.symm.trans hchecked)
      refine ⟨account, marker, hauthor.trans hbefore, hmarker.trans hold, ?_⟩
      exact hname.imp (hnames account).trans fun howed => hkept howed hold (hmarker.trans hold)
    | checked _ _ hmarker hauthor hname =>
      exact ⟨_, _, hauthor, hmarker, Or.inl ((hnames _).trans hname)⟩
    | unchecked hcheck _ => exact absurd (hchecked.symm.trans hcheck) (by simp)
    | @renamed uid old new _ _ hpending hold hcheck hmarker hauthor =>
      obtain ⟨account, marker, hbefore, hmarkerBefore, hname⟩ := h.author g k (hcheck.symm.trans hchecked)
      obtain rfl := Option.some.inj (hmarkerBefore.symm.trans hold)
      obtain ⟨hnew, hfree⟩ := h.renamed uid _ new hpending
      -- nobody has the former name, so a change of the author's name is pending, which is this one
      rcases hname with hname | ⟨new', task, htask, hcall, hbegun', -⟩
      · exact absurd hname (hfree account)
      · obtain rfl := h.alone uid account _ new new' hpending ⟨task, htask, hcall, hbegun'⟩
        exact ⟨uid, new, hauthor.trans hbefore, hmarker, Or.inl ((hnames uid).trans hnew)⟩

/-- Where one element of a list has a property, it is the only one. -/
theorem mem_of_countP_eq_one {α : Type*} {p : α → Bool} {before after : List α} {a b : α}
    (hcount : (before ++ a :: after).countP p = 1) (ha : p a = true) (hb : b ∈ before ++ a :: after)
    (hpb : p b = true) : b = a := by
  rw [List.countP_append, List.countP_cons_of_pos ha] at hcount
  rw [List.mem_append, List.mem_cons] at hb
  rcases hb with hbefore | rfl | hafter
  · have := List.countP_pos_iff.mpr ⟨b, hbefore, hpb⟩
    omega
  · rfl
  · have := List.countP_pos_iff.mpr ⟨b, hafter, hpb⟩
    omega

/-- A change of username has overwritten the stored name, which the screen showed, with a name that
nobody has or is giving up, and no other change of the account has begun. -/
structure Overwrites (s s' : MarkSys) (uid : Key) (old new : String) : Prop where
  stored : storedUsername s.db uid = some old
  fresh : ∀ other, storedUsername s.db other ≠ some new
  pending : ∀ account m n, Renamed s.pool account m n → uid ≠ account ∧ m ≠ new
  db_eq : s'.db = (Write.update [Keys.users, uid] [([Keys.username], str new)]).apply s.db
  begun : (.changeUsername uid old new, .run (MarkWrite.afterUsername uid old new)) ∈ s'.pool
  kept : ∀ task ∈ s.pool, Begun task → task ∈ s'.pool
  pool : ∀ task ∈ s'.pool, task ∈ s.pool ∨
    task = (.changeUsername uid old new, .run (MarkWrite.afterUsername uid old new))

namespace Overwrites

variable {uid : Key} {old new : String}

/-- The first write of a change of username. -/
theorem of_step {i : ℕ} (ha : MarksCurrent s (.run i))
    (hget : s.pool[i]? = some
      (.changeUsername uid old new, .run (MarkCall.changeUsername uid old new).code))
    (hstep : s.step MarkCall.code (.run i) = some s') : Overwrites s s' uid old new := by
  have hnot := not_begun_code uid old new
  rw [MarkWrite.code_changeUsername] at hget hnot
  simp only [MarksCurrent, hget] at ha
  obtain ⟨hstored, hfresh, hpending, hcount⟩ := ha.1 trivial
  obtain ⟨before, t, body, after, db, mem, rest, hsplit, hget', hbody, rfl⟩ :=
    Sys.step_run_eq_some hstep
  obtain ⟨rfl, rfl⟩ := Prod.mk.inj (Option.some.inj (hget'.symm.trans hget))
  simp only [Body.step, Option.some.injEq, Prod.mk.injEq] at hbody
  obtain ⟨rfl, -, rfl⟩ := hbody
  constructor
  case stored => exact hstored
  case fresh => exact fun other hother => hfresh (mem_storedUsernames.mpr ⟨other, hother⟩)
  case pending =>
    intro account m n hrenamed
    obtain ⟨task, htask, hcall, htaskbegun⟩ := hrenamed
    constructor
    · rintro rfl
      have hrenames : task.1.renames uid = true := by simp [hcall, MarkCall.renames]
      have hself : (MarkCall.changeUsername uid old new).renames uid = true := by simp [MarkCall.renames]
      rw [hsplit] at htask hcount
      rcases mem_of_countP_eq_one hcount hself htask hrenames with rfl
      exact hnot htaskbegun
    · rintro rfl
      exact hpending task htask (by rw [hcall]; rfl)
  case db_eq => rfl
  case begun => simp
  case kept =>
    intro task htask htaskbegun
    rw [hsplit, List.mem_append, List.mem_cons] at htask
    rcases htask with hbefore | rfl | hafter
    · simp [hbefore]
    · exact absurd htaskbegun hnot
    · simp [hafter]
  case pool =>
    intro task htask
    rcases Sys.mem_rest htask (.run (.write (.update [Keys.users, uid] [([Keys.username], str new)])
      (MarkWrite.afterUsername uid old new))) with hold | ⟨b, hb, rfl⟩
    · exact Or.inl (hsplit ▸ hold)
    · rw [List.mem_singleton.mp hb]
      exact Or.inr rfl

/-- The account has its new name. -/
theorem new_stored (ho : Overwrites s s' uid old new) : storedUsername s'.db uid = some new := by
  rw [ho.db_eq]
  exact storedUsername_update uid new s.db

/-- The other accounts have the names that they had. -/
theorem others (ho : Overwrites s s' uid old new) {other : Key} (hne : uid ≠ other) :
    storedUsername s'.db other = storedUsername s.db other := by
  rw [ho.db_eq]
  exact storedUsername_apply_of_ne s.db rfl hne

/-- The new name is another one. -/
theorem old_ne_new (ho : Overwrites s s' uid old new) : old ≠ new := by
  rintro rfl
  exact ho.fresh uid ho.stored

/-- The changes that have begun are those from before and this one. -/
theorem renamed_or (ho : Overwrites s s' uid old new) {account : Key} {m n : String}
    (hrenamed : Renamed s'.pool account m n) :
    Renamed s.pool account m n ∨ account = uid ∧ m = old ∧ n = new := by
  obtain ⟨task, htask, hcall, hbegun⟩ := hrenamed
  rcases ho.pool task htask with hold | rfl
  · exact Or.inl ⟨task, hold, hcall, hbegun⟩
  · simp only [MarkCall.changeUsername.injEq] at hcall
    exact Or.inr ⟨hcall.1.symm, hcall.2.1.symm, hcall.2.2.symm⟩

/-- A change that has begun before gives up another name. -/
theorem former_ne (ho : Overwrites s s' uid old new) (h : MarkInv first past s) {account : Key}
    {m n : String} (hrenamed : Renamed s.pool account m n) : m ≠ old := by
  rintro rfl
  exact (h.renamed account m n hrenamed).2 uid ho.stored

/-- Usernames stay different. -/
theorem distinct (ho : Overwrites s s' uid old new) (h : MarkInv first past s) : DistinctNames s'.db := by
  intro account account' name hname hname'
  by_cases huid : uid = account
  · subst huid
    by_cases huid' : uid = account'
    · exact huid'
    · obtain rfl := Option.some.inj (ho.new_stored.symm.trans hname)
      exact absurd ((ho.others huid').symm.trans hname') (ho.fresh account')
  · by_cases huid' : uid = account'
    · subst huid'
      obtain rfl := Option.some.inj (ho.new_stored.symm.trans hname')
      exact absurd ((ho.others huid).symm.trans hname) (ho.fresh account)
    · exact h.distinct account account' name ((ho.others huid).symm.trans hname)
        ((ho.others huid').symm.trans hname')

/-- Where a change has begun the new name is stored, and nobody has the former one. -/
theorem renamed (ho : Overwrites s s' uid old new) (h : MarkInv first past s) {account : Key}
    {m n : String} (hrenamed : Renamed s'.pool account m n) :
    storedUsername s'.db account = some n ∧ ∀ other, storedUsername s'.db other ≠ some m := by
  rcases ho.renamed_or hrenamed with hbefore | ⟨rfl, rfl, rfl⟩
  · obtain ⟨hstored, hformer⟩ := h.renamed account m n hbefore
    obtain ⟨hother, hne⟩ := ho.pending account m n hbefore
    refine ⟨(ho.others hother).trans hstored, fun other hname => ?_⟩
    by_cases huid : uid = other
    · subst huid
      exact hne (Option.some.inj (hname.symm.trans ho.new_stored))
    · exact hformer other ((ho.others huid).symm.trans hname)
  · refine ⟨ho.new_stored, fun other hname => ?_⟩
    by_cases huid : account = other
    · subst huid
      exact ho.old_ne_new (Option.some.inj (hname.symm.trans ho.new_stored))
    · exact huid (h.distinct account other m ho.stored ((ho.others huid).symm.trans hname))

/-- No two changes of different accounts that have begun give up the same name. -/
theorem alone (ho : Overwrites s s' uid old new) (h : MarkInv first past s) {account account' : Key}
    {m n n' : String} (hrenamed : Renamed s'.pool account m n) (hrenamed' : Renamed s'.pool account' m n') :
    account = account' := by
  rcases ho.renamed_or hrenamed with hbefore | ⟨rfl, rfl, rfl⟩
  · rcases ho.renamed_or hrenamed' with hbefore' | ⟨rfl, rfl, rfl⟩
    · exact h.alone account account' m n n' hbefore hbefore'
    · exact absurd rfl (ho.former_ne h hbefore)
  · rcases ho.renamed_or hrenamed' with hbefore' | ⟨rfl, -, rfl⟩
    · exact absurd rfl (ho.former_ne h hbefore')
    · rfl

/-- Check marks stay. -/
theorem storedCheck_eq (ho : Overwrites s s' uid old new) (g k : Key) :
    storedCheck s'.db g k = storedCheck s.db g k := by
  rw [ho.db_eq]
  exact storedCheck_update uid new s.db g k

/-- Markers stay. -/
theorem storedMarker_eq (ho : Overwrites s s' uid old new) (g k : Key) :
    storedMarker s'.db g k = storedMarker s.db g k := by
  rw [ho.db_eq]
  exact storedMarker_update uid new s.db g k

/-- Who has checked an item off under the former name is owed the new one. -/
theorem name_or_owed (ho : Overwrites s s' uid old new) {account : Key} {marker : String} {g k : Key}
    (hname : storedUsername s.db account = some marker ∨ Owed s.pool account marker g k) :
    storedUsername s'.db account = some marker ∨ Owed s'.pool account marker g k := by
  rcases hname with hname | ⟨n, task, htask, hcall, hbegun, howes⟩
  · by_cases huid : uid = account
    · subst huid
      obtain rfl := Option.some.inj (hname.symm.trans ho.stored)
      exact Or.inr ⟨new, _, ho.begun, rfl, MarkWrite.holds_afterUsername uid marker new,
        MarkWrite.owes_afterUsername ho.old_ne_new g k⟩
    · exact Or.inl ((ho.others huid).trans hname)
  · exact Or.inr ⟨n, task, ho.kept task htask hbegun, hcall, hbegun, howes⟩

end Overwrites

/-- Changing a username keeps the invariant. -/
theorem run_first {i : ℕ} {uid : Key} {old new : String} (h : MarkInv first past s)
    (ha : MarksCurrent s (.run i))
    (hget : s.pool[i]? = some
      (.changeUsername uid old new, .run (MarkCall.changeUsername uid old new).code))
    (hstep : s.step MarkCall.code (.run i) = some s') :
    MarkInv first (past ++ (s.event (.run i)).toList) s' := by
  have ho := Overwrites.of_step ha hget hstep
  have hvalid := h.valid _ (List.mem_of_getElem? hget)
  have hauthor (g k : Key) :
      lastCheckOff first (past ++ (s.event (.run i)).toList) g k = lastCheckOff first past g k := by
    apply lastCheckOff_other
    intro account username w hsome
    simp [Sys.event, hget, Body.event, MarkWrite.code_changeUsername] at hsome
  constructor
  case valid =>
    intro task htask
    rcases ho.pool task htask with hold | rfl
    · exact h.valid task hold
    · exact hvalid
  case phases =>
    intro task htask
    rcases ho.pool task htask with hold | rfl
    · exact h.phases task hold
    · exact Or.inl (MarkWrite.holds_afterUsername uid old new)
  case distinct => exact ho.distinct h
  case renamed => exact fun account m n hrenamed => ho.renamed h hrenamed
  case alone => exact fun account account' m n n' hrenamed hrenamed' => ho.alone h hrenamed hrenamed'
  case agrees =>
    intro g k
    rw [Agrees, ho.storedCheck_eq, ho.storedMarker_eq]
    exact h.agrees g k
  case author =>
    intro g k hchecked
    obtain ⟨account, marker, hbefore, hold, hname⟩ :=
      h.author g k ((ho.storedCheck_eq g k).symm.trans hchecked)
    exact ⟨account, marker, (hauthor g k).trans hbefore, (ho.storedMarker_eq g k).trans hold,
      ho.name_or_owed hname⟩

/-- Every step keeps the invariant. -/
theorem step {a : Act MarkCall} (h : MarkInv first past s) (ha : MarkStep past s a)
    (hstep : s.step MarkCall.code a = some s') : MarkInv first (past ++ (s.event a).toList) s' := by
  cases a with
  | spawn t =>
    have hevent : past ++ (s.event (.spawn t)).toList = past := by simp [Sys.event]
    rw [hevent]
    exact h.spawn ha.1 hstep
  | run i =>
    obtain ⟨-, t, body, -, -, -, -, -, hget, -, -⟩ := Sys.step_run_eq_some hstep
    rcases h.phases _ (List.mem_of_getElem? hget) with hbegun | ⟨uid, old, new, hfirst⟩
    · exact h.run_begun ha.2 hget hbegun hstep
    · exact h.run_first ha.2 (hfirst ▸ hget) hstep

end MarkInv

/-- A group of two members with one item on its list. -/
def sharedMilk : Store Value :=
  [.update [Keys.groups, Sample.home]
      [([Keys.master], str "alice"), ([Keys.groupListCount], int 1), ([Keys.groupListCheckCount], int 0)],
    .update (itemPath Sample.home Sample.milk)
      [([Keys.description], str ""), ([Keys.addedBy], str "alice"), ([Keys.markedOffBy], str "- -"),
        ([Keys.isSelected], bool false)]].foldl
    (fun db w => Write.apply w db) sharedByTwo

/-- The one item of the group is not checked. -/
theorem unchecked_sharedMilk (g k : Key) : storedCheck sharedMilk g k ≠ some true ∧
    ∀ marker, storedMarker sharedMilk g k = some marker → marker = "- -" := by
  have honly {field : Key} {v : Value} (h : sharedMilk.get (itemPath g k ++ [field]) = some v) :
      g = Sample.home ∧ k = Sample.milk := by
    have hgroups : sharedMilk.children [Keys.groups] = [Sample.home] := by decide
    have hitems : sharedMilk.children [Keys.groups, Sample.home, Keys.groceryList] = [Sample.milk] := by
      decide
    have hg : g ∈ sharedMilk.children [Keys.groups] :=
      (Store.mem_children _ _ _).mpr ⟨[Keys.groceryList, k, field], v, h⟩
    rw [hgroups, List.mem_singleton] at hg
    subst hg
    have hk : k ∈ sharedMilk.children [Keys.groups, Sample.home, Keys.groceryList] :=
      (Store.mem_children _ _ _).mpr ⟨[field], v, h⟩
    rw [hitems, List.mem_singleton] at hk
    exact ⟨rfl, hk⟩
  have hcheck : storedCheck sharedMilk Sample.home Sample.milk = some false := by decide
  have hmarker : storedMarker sharedMilk Sample.home Sample.milk = some "- -" := by decide
  constructor
  · intro hchecked
    have hvalue := (asBool_eq_some_iff _ _).mp hchecked
    rw [value_snapshot] at hvalue
    obtain ⟨rfl, rfl⟩ := honly hvalue
    exact absurd (hchecked.symm.trans hcheck) (by simp)
  · intro marker hmarked
    have hvalue := (asString_eq_some_iff _ _).mp hmarked
    rw [value_snapshot] at hvalue
    obtain ⟨rfl, rfl⟩ := honly hvalue
    exact Option.some.inj (hmarked.symm.trans hmarker)

/-- Calls of screens that show the names of their accounts, all accepted ones. -/
def MarkCalls (_ : List (MarkCall × Event Value)) (s : MarkSys) : Act MarkCall → Prop
  | .spawn (.markeOffUser account _ _ username) =>
      storedUsername s.db account = some username ∧ ValidUsername username
  | .spawn (.uncheckUser _ _) => True
  | .spawn (.changeUsername uid profileName newUsername) =>
      storedUsername s.db uid = some profileName ∧ ValidUsername profileName ∧ ValidUsername newUsername
  | .run _ => True

instance (past : List (MarkCall × Event Value)) (s : MarkSys) (a : Act MarkCall) :
    Decidable (MarkCalls past s a) := by
  unfold MarkCalls
  split <;> infer_instance

end GroceryListApp

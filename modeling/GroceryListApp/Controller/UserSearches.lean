import GroceryListApp.Controller.CreateGroups
import GroceryListApp.Realtime.Machine

/-!
# What the table of a search shows

An observer appends what it finds to its array each time the accounts change, and never empties it. All
observers of earlier edits still fill the table, also when the field has been emptied since. So once
all values have arrived, the table is right exactly when the observer that was handed the last of them
had found nothing before, and when what it finds then is what the field asks for.
-/

namespace GroceryListApp

open Realtime

namespace CreateGroups

/-- A username that the search for a text is to find: it is stored for another user and contains the text. -/
def IsMatch (uid : Key) (db : Store Value) (text name : String) : Prop :=
  name ∈ storedUsernames db ∧ containsText name text = true ∧ some name ≠ storedUsername db uid

/-- When no value is on its way, the table has every match once and nothing else. For an empty field it
is empty. -/
def ShowsMatches (uid : Key) (s : CreateGroups) : Prop :=
  s.values = [] → s.usernameArray.Nodup ∧
    ∀ name, name ∈ s.usernameArray ↔ s.searchText ≠ "" ∧ IsMatch uid s.db s.searchText name

/-- Values arrive in the order in which they were raised, each after the user's own name has arrived at
its observer. -/
def InOrder (s : CreateGroups) : CreateGroupsEvent → Prop
  | .valueArrives index =>
    index = 0 ∧ ∀ value ∈ s.values[index]?, ∀ search ∈ s.searches[value.1]?, search.userArrived = true
  | _ => True

instance (s : CreateGroups) (e : CreateGroupsEvent) : Decidable (s.InOrder e) := by
  unfold InOrder
  split <;> infer_instance

/-- An observer that finds now what the field asks for: it has found nothing before, the names that
match belong to one account each, and of the names that match its query it leaves out the user's own
one, or all of them when the field is empty. -/
structure FindsMatches (uid : Key) (s : CreateGroups) (search : UserSearch) : Prop where
  unused : search.usernameArray = []
  distinct : ((storedUsernames s.db).filter fun name =>
    containsText name search.query ∧ name ≠ search.currentUser).Nodup
  leavesOut : ∀ name ∈ storedUsernames s.db, containsText name search.query = true →
    (name = search.currentUser ↔ s.searchText = "" ∨ some name = storedUsername s.db uid)

instance (uid : Key) (s : CreateGroups) (search : UserSearch) : Decidable (FindsMatches uid s search) :=
  decidable_of_iff (_ ∧ _ ∧ _) ⟨fun h => ⟨h.1, h.2.1, h.2.2⟩, fun h => ⟨h.unused, h.distinct, h.leavesOut⟩⟩

/-- The last value that is on its way arrives at an observer that finds what the field asks for. -/
def LastFindsMatches (uid : Key) (s : CreateGroups) : CreateGroupsEvent → Prop
  | .valueArrives _ => s.values.length = 1 →
    ∀ value ∈ s.values[0]?, ∀ search ∈ s.searches[value.1]?, FindsMatches uid s search
  | _ => True

instance (uid : Key) (s : CreateGroups) (e : CreateGroupsEvent) : Decidable (s.LastFindsMatches uid e) := by
  unfold LastFindsMatches
  split <;> infer_instance

/-! ### What an observer finds -/

/-- An observer does not find the name that it takes for the user's own. -/
theorem not_mem_matchUsernames {query currentUser : String} {before after : List String}
    {snapshot : Snapshot Value} (hbefore : currentUser ∉ before)
    (h : matchUsernames query currentUser before snapshot = some after) : currentUser ∉ after := by
  rw [matchUsernames] at h
  generalize snapshot.children = children at h
  induction children generalizing before with
  | nil => exact Option.some.inj h ▸ hbefore
  | cons user children ih =>
    rw [List.foldlM_cons] at h
    obtain ⟨next, hnext, hrest⟩ := Option.bind_eq_some_iff.mp h
    refine ih ?_ hrest
    obtain ⟨username, -, hsome⟩ := Option.bind_eq_some_iff.mp hnext
    rw [← Option.some.inj hsome]
    split
    · next hmatch => simpa [hbefore] using Ne.symm hmatch.2
    · exact hbefore

/-- A search that does not abort appends the names that match. -/
theorem eq_of_matchUsernames {query currentUser : String} {before after : List String} {db : Store Value}
    (h : matchUsernames query currentUser before (db.snapshot [Keys.users]) = some after) :
    after = before ++ (storedUsernames db).filter fun name =>
      containsText name query ∧ name ≠ currentUser := by
  by_cases hnamed : AllNamed db
  · rw [matchUsernames_named hnamed] at h
    exact (Option.some.inj h).symm
  · rw [matchUsernames_unnamed hnamed] at h
    contradiction

/-- What an observer hands to the table is what the field asks for exactly when it has found nothing
before and finds that now. -/
theorem shows_iff_findsMatches (uid : Key) {s : CreateGroups} {search : UserSearch}
    (hown : search.currentUser ∉ search.usernameArray)
    (hquery : s.searchText ≠ "" → search.query = s.searchText) {after : List String}
    (hafter : after = search.usernameArray ++ (storedUsernames s.db).filter fun name =>
      containsText name search.query ∧ name ≠ search.currentUser) :
    (after.Nodup ∧ ∀ name, name ∈ after ↔ s.searchText ≠ "" ∧ IsMatch uid s.db s.searchText name) ↔
      FindsMatches uid s search := by
  have hfound (name : String) : name ∈ (storedUsernames s.db).filter (fun name =>
      containsText name search.query ∧ name ≠ search.currentUser) ↔
      name ∈ storedUsernames s.db ∧ containsText name search.query = true ∧ name ≠ search.currentUser := by
    rw [List.mem_filter, decide_eq_true_eq]
  constructor
  · intro h
    obtain ⟨hnodup, hmem⟩ := h
    rw [hafter, List.nodup_append] at hnodup
    have hunused : search.usernameArray = [] := by
      apply List.eq_nil_iff_forall_not_mem.mpr
      intro name hname
      have hmatch := (hmem name).mp (hafter ▸ List.mem_append_left _ hname)
      have hother : name ≠ search.currentUser := fun hsame => hown (hsame ▸ hname)
      have hagain := (hfound name).mpr ⟨hmatch.2.1, hquery hmatch.1 ▸ hmatch.2.2.1, hother⟩
      exact hnodup.2.2 name hname name hagain rfl
    refine ⟨hunused, hnodup.2.1, fun name hstored hcontains => ?_⟩
    have hmem' := hmem name
    rw [hafter, hunused, List.nil_append, hfound] at hmem'
    constructor
    · intro hsame
      by_contra hneither
      obtain ⟨hfield, hother⟩ := not_or.mp hneither
      exact (hmem'.mpr ⟨hfield, hstored, hquery hfield ▸ hcontains, hother⟩).2.2 hsame
    · intro hout
      by_contra hother
      obtain ⟨hfield, -, -, hne⟩ := hmem'.mp ⟨hstored, hcontains, hother⟩
      exact hout.elim hfield hne
  · intro h
    rw [hafter, h.unused, List.nil_append]
    refine ⟨h.distinct, fun name => ?_⟩
    rw [hfound]
    constructor
    · intro hname
      obtain ⟨hstored, hcontains, hother⟩ := hname
      obtain ⟨hfield, hne⟩ := not_or.mp (mt (h.leavesOut name hstored hcontains).mpr hother)
      exact ⟨hfield, hstored, hquery hfield ▸ hcontains, hne⟩
    · intro hname
      obtain ⟨hfield, hstored, hcontains, hne⟩ := hname
      have hcontains' : containsText name search.query = true := (hquery hfield).symm ▸ hcontains
      exact ⟨hstored, hcontains', mt (h.leavesOut name hstored hcontains').mp (not_or.mpr ⟨hfield, hne⟩)⟩

/-! ### One event -/

/-- What holds of the observers and of the values that are on their way. -/
structure SearchInv (s : CreateGroups) : Prop where
  own : ∀ search ∈ s.searches, if search.userArrived then search.currentUser ∉ search.usernameArray
    else search.usernameArray = []
  query : s.searchText ≠ "" → (s.searches.map UserSearch.query).getLast? = some s.searchText
  last : ∀ value ∈ s.values.getLast?, value.1 + 1 = s.searches.length ∧
    ∃ db, SameBelow [Keys.users] db s.db ∧ value.2 = db.snapshot [Keys.users]

/-- Replacing an observer by one with the same query keeps the queries. -/
theorem map_query_set {searches : List UserSearch} {number : ℕ} {search search' : UserSearch}
    (h : searches[number]? = some search) (hquery : search'.query = search.query) :
    (searches.set number search').map UserSearch.query = searches.map UserSearch.query := by
  apply List.ext_getElem?
  intro i
  rw [List.getElem?_map, List.getElem?_map, List.getElem?_set]
  split
  · next hi =>
    obtain ⟨hnumber, -⟩ := List.getElem?_eq_some_iff.mp h
    rw [if_pos hnumber, ← hi, h, Option.map_some, Option.map_some, hquery]
  · rfl

namespace SearchInv

variable {uid : Key} {s next : CreateGroups}

/-- Nothing changes for the search while its observers, values, table and field stay, and the accounts. -/
theorem frame (hinv : SearchInv s) (hshows : ShowsMatches uid s) (hsearches : next.searches = s.searches)
    (hvalues : next.values = s.values) (htext : next.searchText = s.searchText)
    (htable : next.usernameArray = s.usernameArray) (hdb : SameBelow [Keys.users] s.db next.db) :
    SearchInv next ∧ ShowsMatches uid next := by
  constructor
  · refine ⟨hsearches ▸ hinv.own, ?_, ?_⟩
    · rw [hsearches, htext]
      exact hinv.query
    · rw [hsearches, hvalues]
      intro value hvalue
      obtain ⟨hnumber, db, hsame, hsnapshot⟩ := hinv.last value hvalue
      refine ⟨hnumber, db, ?_, hsnapshot⟩
      rw [sameBelow_iff] at hsame hdb ⊢
      exact fun q => (hdb q).trans (hsame q)
  · unfold ShowsMatches IsMatch
    rw [hvalues, htext, htable, hdb.storedUsernames_eq, hdb.storedUsername_eq]
    exact hshows

/-- An edit of the field empties the table or raises a value. -/
theorem textFieldDidChange (hinv : SearchInv s) (text : String) :
    SearchInv (s.textFieldDidChange text) ∧ ShowsMatches uid (s.textFieldDidChange text) := by
  unfold CreateGroups.textFieldDidChange
  split
  · next hempty =>
    refine ⟨⟨hinv.own, fun h => absurd hempty h, hinv.last⟩, fun _ => ⟨List.nodup_nil, fun name => ?_⟩⟩
    exact iff_of_false List.not_mem_nil fun h => h.1 hempty
  · refine ⟨⟨?_, ?_, ?_⟩, fun hnone => ?_⟩
    · intro search hsearch
      rcases List.mem_append.mp hsearch with hbefore | hnew
      · exact hinv.own search hbefore
      · rw [List.mem_singleton.mp hnew]
        rfl
    · intro _
      rw [List.map_append, List.map_singleton, List.getLast?_concat]
    · intro value hvalue
      rw [List.getLast?_concat, Option.mem_some_iff] at hvalue
      subst hvalue
      refine ⟨by simp, s.db, ?_, rfl⟩
      exact (sameBelow_iff _ _ _).mpr fun _ => rfl
    · simp at hnone

/-- The arrival of the user's own name at an observer shows nothing. -/
theorem searchUserArrives (hinv : SearchInv s) (hshows : ShowsMatches uid s) {number : ℕ}
    (h : s.searchUserArrives uid number = some next) : SearchInv next ∧ ShowsMatches uid next := by
  obtain ⟨search, hsearch, h⟩ := Option.bind_eq_some_iff.mp h
  split at h
  · contradiction
  · next hpending =>
    obtain ⟨returnedUsername, -, hnext⟩ := Option.bind_eq_some_iff.mp h
    obtain rfl := Option.some.inj hnext
    refine ⟨⟨?_, ?_, ?_⟩, hshows⟩
    · intro other hother
      rcases List.mem_or_eq_of_mem_set hother with hbefore | rfl
      · exact hinv.own other hbefore
      · have hunused := hinv.own search (List.mem_of_getElem? hsearch)
        rw [if_neg hpending] at hunused
        simp [hunused]
    · intro hfield
      rw [map_query_set hsearch]
      · exact hinv.query hfield
      · rfl
    · intro value hvalue
      rw [List.length_set]
      exact hinv.last value hvalue

/-- A change of the accounts raises a value for every observer. -/
theorem change (hinv : SearchInv s) (hshows : ShowsMatches uid s) (w : Write Value) :
    SearchInv (s.change w) ∧ ShowsMatches uid (s.change w) := by
  unfold CreateGroups.change
  split
  · next hsame => exact hinv.frame hshows rfl rfl rfl rfl hsame
  · cases hcount : s.searches.length with
    | zero =>
      have hnone : s.searches = [] := List.length_eq_zero_iff.mp hcount
      have hempty : s.searchText = "" := by
        by_contra hfield
        have hquery := hinv.query hfield
        simp [hnone] at hquery
      refine ⟨⟨hinv.own, fun h => absurd hempty h, ?_⟩, ?_⟩
      · intro value hvalue
        rw [List.range_zero, List.map_nil, List.append_nil] at hvalue
        have hnumber := (hinv.last value hvalue).1
        omega
      · intro hvalues
        rw [List.range_zero, List.map_nil, List.append_nil] at hvalues
        obtain ⟨hnodup, hmem⟩ := hshows hvalues
        refine ⟨hnodup, fun name => (hmem name).trans ?_⟩
        exact iff_of_false (fun h => h.1 hempty) fun h => h.1 hempty
    | succ count =>
      refine ⟨⟨hinv.own, hinv.query, ?_⟩, fun hnone => ?_⟩
      · intro value hvalue
        rw [List.range_succ, List.map_append, List.map_singleton, ← List.append_assoc,
          List.getLast?_concat, Option.mem_some_iff] at hvalue
        subst hvalue
        refine ⟨hcount.symm, _, ?_, rfl⟩
        exact (sameBelow_iff _ _ _).mpr fun _ => rfl
      · simp [List.range_succ] at hnone

/-- A value that arrives shows what the field asks for, if it is the last one, exactly when its observer
finds that. -/
theorem valueArrives (hinv : SearchInv s) (horder : s.InOrder (.valueArrives 0))
    (h : s.valueArrives 0 = some next) :
    SearchInv next ∧ (ShowsMatches uid next ↔ LastFindsMatches uid s (.valueArrives 0)) := by
  obtain ⟨⟨number, snapshot⟩, hvalue, h⟩ := Option.bind_eq_some_iff.mp h
  obtain ⟨search, hsearch, h⟩ := Option.bind_eq_some_iff.mp h
  obtain ⟨after, hafter, hnext⟩ := Option.bind_eq_some_iff.mp h
  obtain rfl := Option.some.inj hnext
  have harrived : search.userArrived = true := horder.2 _ hvalue search hsearch
  have hown := hinv.own search (List.mem_of_getElem? hsearch)
  rw [if_pos harrived] at hown
  cases hvalues : s.values with
  | nil => simp [hvalues] at hvalue
  | cons first rest =>
    obtain rfl : first = (number, snapshot) := by simpa [hvalues] using hvalue
    have hqueries : ((s.searches.set number { search with usernameArray := after }).map
        UserSearch.query) = s.searches.map UserSearch.query := map_query_set hsearch rfl
    constructor
    · refine ⟨?_, ?_, ?_⟩
      · intro other hother
        rcases List.mem_or_eq_of_mem_set hother with hbefore | rfl
        · exact hinv.own other hbefore
        · rw [if_pos harrived]
          exact not_mem_matchUsernames hown hafter
      · rw [hqueries]
        exact hinv.query
      · intro value hlast
        rw [List.length_set]
        apply hinv.last
        simp only [List.eraseIdx_zero, List.tail_cons] at hlast
        rw [hvalues, List.getLast?_cons, Option.mem_def.mp hlast]
        rfl
    · cases rest with
      | cons second rest =>
        refine iff_of_true (fun hnone => ?_) fun hlength => ?_
        · simp at hnone
        · simp [hvalues] at hlength
      | nil =>
        obtain ⟨hnumber, db, hsame, hsnapshot⟩ := hinv.last (number, snapshot) (by simp [hvalues])
        have hquery : s.searchText ≠ "" → search.query = s.searchText := by
          intro hfield
          have hlast := hinv.query hfield
          have hindex : s.searches.length - 1 = number := by omega
          rw [List.getLast?_eq_getElem?, List.length_map, hindex, List.getElem?_map, hsearch] at hlast
          exact Option.some.inj hlast
        have hfound := eq_of_matchUsernames (hsnapshot ▸ hafter)
        rw [← hsame.storedUsernames_eq] at hfound
        have hiff := shows_iff_findsMatches uid hown hquery hfound
        constructor
        · intro hshows _ value hvalue' search' hsearch'
          rw [hvalue, Option.mem_some_iff] at hvalue'
          subst hvalue'
          rw [hsearch, Option.mem_some_iff] at hsearch'
          subst hsearch'
          exact hiff.mp (hshows (by simp))
        · intro hfinds _
          exact hiff.mpr (hfinds (by simp [hvalues]) _ hvalue search hsearch)

/-- After every event the table is still right, except that of a last value its observer has to find
what the field asks for. -/
theorem step (hinv : SearchInv s) (hshows : ShowsMatches uid s) {e : CreateGroupsEvent}
    (h : Machine.only InOrder (step uid) s e = some next) :
    SearchInv next ∧ (ShowsMatches uid next ↔ LastFindsMatches uid s e) := by
  obtain ⟨horder, hstep⟩ := Machine.of_only_eq_some h
  have hall {e : CreateGroupsEvent} (hallowed : LastFindsMatches uid s e)
      (hkept : SearchInv next ∧ ShowsMatches uid next) :
      SearchInv next ∧ (ShowsMatches uid next ↔ LastFindsMatches uid s e) :=
    ⟨hkept.1, iff_of_true hkept.2 hallowed⟩
  have hsame : SameBelow [Keys.users] s.db s.db := (sameBelow_iff _ _ _).mpr fun _ => rfl
  cases e with
  | viewWillAppear | groupTextDidChange text | descriptionDidChange text =>
    obtain rfl := Option.some.inj hstep
    exact hall trivial (hinv.frame hshows rfl rfl rfl rfl hsame)
  | usernameArrives =>
    simp only [CreateGroups.step] at hstep
    split at hstep
    · obtain ⟨returnedUsername, -, rfl⟩ := Option.map_eq_some_iff.mp hstep
      exact hall trivial (hinv.frame hshows rfl rfl rfl rfl hsame)
    · contradiction
  | textFieldDidChange text =>
    obtain rfl := Option.some.inj hstep
    exact hall trivial (hinv.textFieldDidChange text)
  | searchUserArrives number => exact hall trivial (hinv.searchUserArrives hshows hstep)
  | valueArrives index =>
    obtain rfl := horder.1
    exact hinv.valueArrives horder hstep
  | didSelectRowAt row =>
    obtain ⟨username, -, rfl⟩ := Option.map_eq_some_iff.mp hstep
    refine hall trivial ?_
    unfold CreateGroups.didSelect
    split
    · exact hinv.frame hshows rfl rfl rfl rfl hsame
    · dsimp only
      split <;> exact hinv.frame hshows rfl rfl rfl rfl hsame
  | checkmarkBtnWasPressed =>
    simp only [CreateGroups.step] at hstep
    split at hstep
    · contradiction
    · obtain rfl := Option.some.inj hstep
      refine hall trivial ?_
      unfold CreateGroups.checkmarkBtnWasPressed
      split <;> exact hinv.frame hshows rfl rfl rfl rfl hsame
  | idsArrive index autoId =>
    obtain ⟨ids, usernames, members, -, -, rfl⟩ := of_idsArrive hstep
    exact hall trivial (hinv.frame hshows rfl rfl rfl rfl (s.sameBelow_groupWrite autoId members))
  | change w =>
    obtain rfl := Option.some.inj hstep
    exact hall trivial (hinv.change hshows w)

end SearchInv

/-- The loaded screen has no observers. -/
theorem searchInv_loaded (db : Store Value) : SearchInv (loaded db) :=
  ⟨by simp [loaded], fun h => absurd rfl h, by simp [loaded]⟩

/-- Along all events the table shows exactly the matches, whenever no value is on its way, if and only if
every last value arrives at an observer that finds them. -/
theorem shows_matches_iff (uid : Key) (db : Store Value) (events : List CreateGroupsEvent) :
    Machine.Always (Machine.only InOrder (step uid)) (ShowsMatches uid) (loaded db) events ↔
      Machine.Throughout (Machine.only InOrder (step uid)) (LastFindsMatches uid) (loaded db) events := by
  refine Machine.always_iff_throughout (fun s e next hinv hshows h => ?_) events (searchInv_loaded db) ?_
  · exact SearchInv.step hinv hshows h
  · exact fun _ => ⟨List.nodup_nil, fun name => iff_of_false List.not_mem_nil fun h => h.1 rfl⟩

/-- The user searches for a text and is shown the matches. -/
def searchBo : List CreateGroupsEvent :=
  [.textFieldDidChange "bo", .searchUserArrives 0, .valueArrives 0]

/-- Another account is stored while the matches are shown. -/
def storedMeanwhile : List CreateGroupsEvent := searchBo ++ [.change storesCarol, .valueArrives 0]

/-- One search after the accounts are loaded. -/
theorem shows_matches_searchBo :
    Machine.Always (Machine.only InOrder (step Sample.uidA)) (ShowsMatches Sample.uidA)
      (loaded sharedByTwo) searchBo :=
  (shows_matches_iff _ _ _).mpr (by decide +kernel)

/-- An account that is stored after the search makes its matches appear twice. -/
theorem not_shows_matches : ¬ ∀ (uid : Key) (db : Store Value) (events : List CreateGroupsEvent),
    Machine.Always (Machine.only InOrder (step uid)) (ShowsMatches uid) (loaded db) events := by
  intro hclaim
  have hlast : (storedMeanwhile.foldlM (Machine.only InOrder (step Sample.uidA))
      (loaded sharedByTwo)).map (fun s => (s.values.length, s.usernameArray)) =
        some (0, ["bobby", "bobby"]) := by
    decide +kernel
  obtain ⟨s, hs, hreached⟩ := Option.map_eq_some_iff.mp hlast
  obtain ⟨hvalues, htable⟩ := Prod.mk.inj hreached
  have hshows := (hclaim Sample.uidA sharedByTwo storedMeanwhile).of_foldlM hs
  have hnodup := (hshows (List.length_eq_zero_iff.mp hvalues)).1
  rw [htable] at hnodup
  simp at hnodup

end CreateGroups

end GroceryListApp

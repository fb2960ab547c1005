import TifaSoccer.App

/-!
# What calls and completions do

`Called c op c' rs` says everything a call can do, `MatchsCompleted` and `BaseCompleted` everything
a completion can do; nothing above this module unfolds a view model. `CallIssues` and
`CompletionIssues` are their part about requests: which request a call can issue, and which one
the completion of a request can issue on an answer.
-/

namespace TifaSoccer

/-! ## Calls -/

/-- The request `op` puts in flight when it is called in the state `c`. -/
inductive CallIssues (c : Client) : Op → Request → Prop
  | login (email password : String) :
      CallIssues c (.login email password) (.base (.login email password))
  | register (email password nameSurname : String) :
      CallIssues c (.register email password nameSurname)
        (.base (.registerCreate email password nameSurname))
  | getCurrentUserData {uid : String} (huid : c.currentUser = some uid) :
      CallIssues c .getCurrentUserData (.base (.getCurrentUserData uid))
  | loadProfileImage {uid : String} (huid : c.currentUser = some uid) :
      CallIssues c .loadProfileImage (.base (.loadProfileImagePut uid))
  | getAllMatchs : CallIssues c .getAllMatchs (.matchs .getAllMatchs)
  | joinMatches {u : String} (m : String) (user : UserModel) (hu : user.uuid = some u) :
      CallIssues c (.joinMatches m user) (.matchs (.joinMatchesRead m u user))
  | leaveMatches {uid : String} (m : String) (huid : c.currentUser = some uid) :
      CallIssues c (.leaveMatches m) (.matchs (.leaveMatches m uid))
  | deleteMatches (m : String) : CallIssues c (.deleteMatches m) (.matchs (.deleteMatches m))
  | openDetail (m : String) : CallIssues c (.openDetail m) (.matchs (.getMatchWithMatchID m))
  | getMatchWithMatchID (m : String) :
      CallIssues c (.getMatchWithMatchID m) (.matchs (.getMatchWithMatchID m))
  | setPlayerPositionWithMatch (m k : String) (player : UserModel) :
      CallIssues c (.setPlayerPositionWithMatch m k player)
        (.matchs (.setPlayerPositionWithMatch m k player))
  | deletePlayerPositionWithMatch (m k : String) :
      CallIssues c (.deletePlayerPositionWithMatch m k)
        (.matchs (.deletePlayerPositionWithMatch m k))
  | setIsPlanningCompleteForMatch {flag : Bool} (m : String)
      (hflag : c.matchs.selectedMatch.isPlanningComplete = some flag) :
      CallIssues c (.setIsPlanningCompleteForMatch m)
        (.matchs (.setIsPlanningCompleteForMatch m !flag))
  | addComment {m : String} (comment uuid date key : String)
      (hm : c.matchs.selectedMatch.matchID = some m) :
      CallIssues c (.addComment comment uuid date key)
        (.matchs (.addComment m key comment uuid date))
  | createMatch (m adminMessage footballArea : String) (startDate finishDate : Int64) :
      CallIssues c (.createMatch m adminMessage footballArea startDate finishDate)
        (.createMatch (.createMatch m adminMessage footballArea startDate finishDate))
  | getAllPlayers : CallIssues c .getAllPlayers (.players .getAllPlayers)
  | updatePlayerData {uid : String} (nameSurname position : String)
      (huid : c.currentUser = some uid) :
      CallIssues c (.updatePlayerData nameSurname position)
        (.updateProfile (.updatePlayerData uid nameSurname position))

/-- The screen after a call. -/
def Op.detail (screen : Option String) : Op → Option String
  | .openDetail matchID => some matchID
  | .closeDetail => none
  | _ => screen

/-- The calls that show the loading overlay and then send nothing: the optional they unwrap is
`nil`. -/
def Client.strands (c : Client) : Op → Bool
  | .joinMatches _ currentUser => currentUser.uuid.isNone
  | .leaveMatches _ => c.currentUser.isNone
  | .setIsPlanningCompleteForMatch _ => c.matchs.selectedMatch.isPlanningComplete.isNone
  | _ => false

/-- Everything a call can do. -/
inductive Called (c : Client) : Op → Client → List Request → Prop
  | login (email password : String) :
      Called c (.login email password) { c with base := { c.base with isLoad := true } }
        [.base (.login email password)]
  | register (email password nameSurname : String) :
      Called c (.register email password nameSurname)
        { c with base := { c.base with isLoad := true } }
        [.base (.registerCreate email password nameSurname)]
  | signOutThrows : Called c (.signOut true) c []
  | signOut :
      Called c (.signOut false) { c with currentUser := none, base := c.base.signOut } []
  | getCurrentUserData {uid : String} (huid : c.currentUser = some uid) :
      Called c .getCurrentUserData
        { c with base := { c.base with isLoad := true, userModel := none } }
        [.base (.getCurrentUserData uid)]
  | noCurrentUserData (huid : c.currentUser = none) :
      Called c .getCurrentUserData
        { c with base := { c.base with isLoad := false, userModel := none } } []
  | loadProfileImage {uid : String} (huid : c.currentUser = some uid) :
      Called c .loadProfileImage { c with base := { c.base with isLoad := true } }
        [.base (.loadProfileImagePut uid)]
  | noProfileImage (huid : c.currentUser = none) :
      Called c .loadProfileImage { c with base := { c.base with isLoad := false } } []
  | getAllMatchs :
      Called c .getAllMatchs { c with matchs := c.matchs.getAllMatchs.1 } [.matchs .getAllMatchs]
  /-- every other function of `MatchsViewModel` shows the overlay and sends its request -/
  | sendMatchs {op : Op} {r : MatchsViewModel.Request} (hissues : CallIssues c op (.matchs r))
      (hr : r ≠ .getAllMatchs) (hscreen : op ≠ .closeDetail) :
      Called c op
        { c with matchs := { c.matchs with isLoad := true }, detail := op.detail c.detail }
        [.matchs r]
  /-- or shows the overlay and stops there -/
  | strandMatchs {op : Op} (hstrands : c.strands op = true) :
      Called c op { c with matchs := { c.matchs with isLoad := true } } []
  | noComment (comment uuid date key : String) (hm : c.matchs.selectedMatch.matchID = none) :
      Called c (.addComment comment uuid date key) c []
  | closeDetail : Called c .closeDetail { c with detail := none } []
  | createMatch (m adminMessage footballArea : String) (startDate finishDate : Int64)
      (form : CreateMatchViewModel) :
      Called c (.createMatch m adminMessage footballArea startDate finishDate)
        { c with createMatch := form }
        [.createMatch (.createMatch m adminMessage footballArea startDate finishDate)]
  | getAllPlayers :
      Called c .getAllPlayers { c with players := c.players.getAllPlayers.1 }
        [.players .getAllPlayers]
  | updatePlayerData {uid : String} (nameSurname position : String)
      (form : UpdateProfileViewModel) (huid : c.currentUser = some uid) :
      Called c (.updatePlayerData nameSurname position) { c with updateProfile := form }
        [.updateProfile (.updatePlayerData uid nameSurname position)]
  | noPlayerData (nameSurname position : String) (form : UpdateProfileViewModel)
      (huid : c.currentUser = none) :
      Called c (.updatePlayerData nameSurname position) { c with updateProfile := form } []
  | dismissAlert :
      Called c .dismissAlert
        { c with matchs := { c.matchs with showAlert := false, errorMessage := "" } } []

/-- A client that sends one request of its `MatchsViewModel` and nothing else. -/
theorem withMatchs_send {c c' : Client} {vm : MatchsViewModel} {r : MatchsViewModel.Request}
    {rs : List Request} (h : c.withMatchs (vm.send r) = .ok (c', rs)) :
    c' = { c with matchs := vm } ∧ rs = [.matchs r] ∧ ∃ q, r.remote = .ok q := by
  simp only [Client.withMatchs, MatchsViewModel.send, map_eq_ok, bind_eq_ok, pure_eq_ok] at h
  obtain ⟨_, ⟨q, hq, ⟨⟩⟩, ⟨⟩⟩ := h
  exact ⟨rfl, rfl, q, hq⟩

/-- What is left of a call that sends one request. -/
theorem withBase_send {c c' : Client} {vm : BaseViewModel} {r : BaseViewModel.Request}
    {rs : List Request} (h : c.withBase (vm.send r) = .ok (c', rs)) :
    c' = { c with base := vm } ∧ rs = [.base r] ∧ ∃ q, r.remote = .ok q := by
  simp only [Client.withBase, BaseViewModel.send, map_eq_ok, bind_eq_ok, pure_eq_ok] at h
  obtain ⟨_, ⟨q, hq, ⟨⟩⟩, ⟨⟩⟩ := h
  exact ⟨rfl, rfl, q, hq⟩

/-- A function of `MatchsViewModel` that shows the overlay and sends its request. -/
theorem called_of_send {c c₁ c' : Client} {vm : MatchsViewModel} {op : Op}
    {r : MatchsViewModel.Request} {rs : List Request}
    (h : c₁.withMatchs (vm.send r) = .ok (c', rs))
    (hc : { c₁ with matchs := vm } =
      { c with matchs := { c.matchs with isLoad := true }, detail := op.detail c.detail })
    (hissues : CallIssues c op (.matchs r)) (hr : r ≠ .getAllMatchs) (hscreen : op ≠ .closeDetail) :
    Called c op c' rs ∧ ∀ r ∈ rs, ∃ q, r.remote = .ok q := by
  obtain ⟨rfl, rfl, hq⟩ := withMatchs_send h
  rw [hc]
  refine ⟨.sendMatchs hissues hr hscreen, fun r' hr' => ?_⟩
  rw [List.mem_singleton.mp hr']
  exact hq

/-- A call does one of the things `Called` lists, and builds the reference of what it sends. -/
theorem called_of_call {c c' : Client} {op : Op} {rs : List Request}
    (h : c.call op = .ok (c', rs)) : Called c op c' rs ∧ ∀ r ∈ rs, ∃ q, r.remote = .ok q := by
  have hnothing : ∀ r ∈ ([] : List Request), ∃ q, r.remote = .ok q := by simp
  have hone : ∀ {r : Request}, (∃ q, r.remote = .ok q) → ∀ r' ∈ [r], ∃ q, r'.remote = .ok q := by
    intro r hq r' hr'
    rw [List.mem_singleton.mp hr']
    exact hq
  -- a call issues at most one request; it issues none where an optional it unwraps is `nil`
  cases op with
  | login email password =>
    obtain ⟨rfl, rfl, hq⟩ := withBase_send h
    exact ⟨.login email password, hone hq⟩
  | register email password nameSurname =>
    obtain ⟨rfl, rfl, hq⟩ := withBase_send h
    exact ⟨.register email password nameSurname, hone hq⟩
  | signOut throws =>
    cases throws with
    | true =>
      cases h
      exact ⟨.signOutThrows, hnothing⟩
    | false =>
      cases h
      exact ⟨.signOut, hnothing⟩
  | getCurrentUserData =>
    cases huid : c.currentUser with
    | none =>
      simp only [Client.call, huid] at h
      cases h
      exact ⟨.noCurrentUserData huid, hnothing⟩
    | some uid =>
      simp only [Client.call, huid] at h
      obtain ⟨rfl, rfl, hq⟩ := withBase_send h
      exact ⟨.getCurrentUserData huid, hone hq⟩
  | loadProfileImage =>
    cases huid : c.currentUser with
    | none =>
      simp only [Client.call, huid] at h
      cases h
      exact ⟨.noProfileImage huid, hnothing⟩
    | some uid =>
      simp only [Client.call, huid] at h
      obtain ⟨rfl, rfl, hq⟩ := withBase_send h
      exact ⟨.loadProfileImage huid, hone hq⟩
  | getAllMatchs =>
    cases h
    exact ⟨.getAllMatchs, hone ⟨_, rfl⟩⟩
  | joinMatches m user =>
    cases hu : user.uuid with
    | none =>
      simp only [Client.call, MatchsViewModel.joinMatches, hu] at h
      cases h
      exact ⟨.strandMatchs (by simp [Client.strands, hu]), hnothing⟩
    | some u =>
      simp only [Client.call, MatchsViewModel.joinMatches, hu] at h
      exact called_of_send h rfl (.joinMatches m user hu) (by simp) (by simp)
  | leaveMatches m =>
    cases huid : c.currentUser with
    | none =>
      simp only [Client.call, MatchsViewModel.leaveMatches, huid] at h
      cases h
      exact ⟨.strandMatchs (by simp [Client.strands, huid]), hnothing⟩
    | some uid =>
      simp only [Client.call, MatchsViewModel.leaveMatches, huid] at h
      exact called_of_send h rfl (.leaveMatches m huid) (by simp) (by simp)
  | deleteMatches m => exact called_of_send h rfl (.deleteMatches m) (by simp) (by simp)
  | openDetail m => exact called_of_send h rfl (.openDetail m) (by simp) (by simp)
  | closeDetail =>
    cases h
    exact ⟨.closeDetail, hnothing⟩
  | getMatchWithMatchID m => exact called_of_send h rfl (.getMatchWithMatchID m) (by simp) (by simp)
  | setPlayerPositionWithMatch m k player =>
    exact called_of_send h rfl (.setPlayerPositionWithMatch m k player) (by simp) (by simp)
  | deletePlayerPositionWithMatch m k =>
    exact called_of_send h rfl (.deletePlayerPositionWithMatch m k) (by simp) (by simp)
  | setIsPlanningCompleteForMatch m =>
    cases hflag : c.matchs.selectedMatch.isPlanningComplete with
    | none =>
      simp only [Client.call, MatchsViewModel.setIsPlanningCompleteForMatch, hflag] at h
      cases h
      exact ⟨.strandMatchs (by simp [Client.strands, hflag]), hnothing⟩
    | some flag =>
      simp only [Client.call, MatchsViewModel.setIsPlanningCompleteForMatch, hflag] at h
      exact called_of_send h rfl (.setIsPlanningCompleteForMatch m hflag) (by simp) (by simp)
  | addComment comment uuid date key =>
    cases hm : c.matchs.selectedMatch.matchID with
    | none =>
      -- the test for `nil` comes before the overlay is shown
      simp only [Client.call, MatchsViewModel.addComment, hm] at h
      cases h
      exact ⟨.noComment comment uuid date key hm, hnothing⟩
    | some m =>
      simp only [Client.call, MatchsViewModel.addComment, hm] at h
      exact called_of_send h rfl (.addComment comment uuid date key hm) (by simp) (by simp)
  | createMatch m adminMessage footballArea startDate finishDate =>
    simp only [Client.call, Client.withCreateMatch, CreateMatchViewModel.createMatch, map_eq_ok,
      bind_eq_ok, pure_eq_ok] at h
    obtain ⟨_, ⟨q, hq, ⟨⟩⟩, ⟨⟩⟩ := h
    exact ⟨.createMatch m adminMessage footballArea startDate finishDate _, hone ⟨q, hq⟩⟩
  | getAllPlayers =>
    cases h
    exact ⟨.getAllPlayers, hone ⟨_, rfl⟩⟩
  | updatePlayerData nameSurname position =>
    simp only [Client.call, Client.withUpdateProfile, map_eq_ok] at h
    obtain ⟨_, hform, ⟨⟩⟩ := h
    rcases Option.eq_none_or_eq_some c.currentUser with huid | ⟨uid, huid⟩
    · simp only [UpdateProfileViewModel.updatePlayerData, huid] at hform
      cases hform
      exact ⟨.noPlayerData nameSurname position _ huid, hnothing⟩
    · simp only [UpdateProfileViewModel.updatePlayerData, huid, bind_eq_ok, pure_eq_ok] at hform
      obtain ⟨q, hq, ⟨⟩⟩ := hform
      exact ⟨.updatePlayerData nameSurname position _ huid, hone ⟨q, hq⟩⟩
  | dismissAlert =>
    cases h
    exact ⟨.dismissAlert, hnothing⟩

/-- Everything a call can put in flight, with a reference that could be built. -/
theorem issues_of_call {c c' : Client} {op : Op} {rs : List Request} (h : c.call op = .ok (c', rs))
    {r : Request} (hr : r ∈ rs) : CallIssues c op r ∧ ∃ q, r.remote = .ok q := by
  obtain ⟨hcalled, hsent⟩ := called_of_call h
  refine ⟨?_, hsent r hr⟩
  cases hcalled with
  | sendMatchs hissues _ _ =>
    rw [List.mem_singleton.mp hr]
    exact hissues
  | getCurrentUserData huid =>
    rw [List.mem_singleton.mp hr]
    exact .getCurrentUserData huid
  | loadProfileImage huid =>
    rw [List.mem_singleton.mp hr]
    exact .loadProfileImage huid
  | updatePlayerData nameSurname position _ huid =>
    rw [List.mem_singleton.mp hr]
    exact .updatePlayerData nameSurname position huid
  | login | register | getAllMatchs | createMatch | getAllPlayers =>
    rw [List.mem_singleton.mp hr]
    constructor
  | _ => cases hr

/-! ## Completions -/

/-- The request the completion of a request puts in flight on an answer. -/
inductive CompletionIssues (order : DictOrder) : Request → Answer → Request → Prop
  | joinWrite (m u : String) (user : UserModel) {a : Answer} (ha : ∀ e, a ≠ .error e)
      (hcount : a.value.childrenCount ≠ 14) :
      CompletionIssues order (.matchs (.joinMatchesRead m u user)) a
        (.matchs (.joinMatchesWrite m u user))
  | area (m u : String) {a : Answer} (ha : ∀ e, a ≠ .error e) :
      CompletionIssues order (.matchs (.leaveMatches m u)) a (.matchs (.isUserInFootballArea m u))
  | clearSlot (m u : String) {a : Answer} {position : UserPositionModel} (ha : ∀ e, a ≠ .error e)
      (hposition : MatchsViewModel.positionOfUser order u a.value = some position) :
      CompletionIssues order (.matchs (.isUserInFootballArea m u)) a
        (.matchs (.deletePlayerForFootballArea m (position.positionForMatch.getD "")))
  | reload (r : MatchsViewModel.Request) (a : Answer) :
      CompletionIssues order (.matchs r) a (.matchs .getAllMatchs)
  | reselectSet (m k : String) (player : UserModel) (a : Answer) :
      CompletionIssues order (.matchs (.setPlayerPositionWithMatch m k player)) a
        (.matchs (.getMatchWithMatchID m))
  | reselectDelete (m k : String) (a : Answer) :
      CompletionIssues order (.matchs (.deletePlayerPositionWithMatch m k)) a
        (.matchs (.getMatchWithMatchID m))
  | reselectPlanning (m : String) (b : Bool) (a : Answer) :
      CompletionIssues order (.matchs (.setIsPlanningCompleteForMatch m b)) a
        (.matchs (.getMatchWithMatchID m))
  | reselectComment (m key comment uuid date : String) (a : Answer) :
      CompletionIssues order (.matchs (.addComment m key comment uuid date)) a
        (.matchs (.getMatchWithMatchID m))
  | loginCallback (email password : String) {a : Answer} (ha : ∀ e, a ≠ .error e) :
      CompletionIssues order (.base (.login email password)) a (.base .loginCallback)
  | registerCallback (email password nameSurname : String) {a : Answer} (ha : ∀ e, a ≠ .error e) :
      CompletionIssues order (.base (.registerCreate email password nameSurname)) a
        (.base (.registerCallback (a.uid.getD "") email nameSurname))
  | record (uid email nameSurname : String) (a : Answer) (currentUser : String) :
      CompletionIssues order (.base (.registerCallback uid email nameSurname)) a
        (.base (.registerWrite currentUser email nameSurname))
  | imageURL (uid : String) (a : Answer) :
      CompletionIssues order (.base (.loadProfileImagePut uid)) a (.base (.loadProfileImageURL uid))
  | imageWrite (uid url : String) :
      CompletionIssues order (.base (.loadProfileImageURL uid)) (.url url)
        (.base (.loadProfileImageWrite uid url))

/-- The answer is not an error. -/
def Answer.succeeded : Answer → Bool
  | .error _ => false
  | _ => true

/-- An answer without an error. -/
theorem succeeded_iff {a : Answer} : a.succeeded = true ↔ ∀ e, a ≠ .error e := by
  cases a <;> simp [Answer.succeeded]

/-- An answer with an error. -/
theorem not_succeeded_iff {a : Answer} : a.succeeded = false ↔ ∃ e, a = .error e := by
  cases a <;> simp [Answer.succeeded]

/-- A refresh that succeeds appends the children of its answer. -/
theorem getAllMatchsCompletion_of_succeeded (self : MatchsViewModel) (orders : ℕ → DictOrder)
    {a : Answer} (ha : a.succeeded = true) :
    self.getAllMatchsCompletion orders a = self.appendChildren orders a.value.entries := by
  cases a with
  | error e => cases ha
  | _ => rfl

/-- The requests of `MatchsViewModel` whose answers are stored. -/
def MatchsViewModel.Request.stores : MatchsViewModel.Request → Bool
  | .getAllMatchs => true
  | .getMatchWithMatchID _ => true
  | _ => false

/-- The requests whose failure is shown and ends the operation. -/
def MatchsViewModel.Request.alerts : MatchsViewModel.Request → Bool
  | .getAllMatchs => false
  | .getMatchWithMatchID _ => false
  | .joinMatchesWrite _ _ _ => false
  | _ => true

/-- What alerts does not store. -/
theorem stores_of_alerts {r : MatchsViewModel.Request} (h : r.alerts = true) :
    r.stores = false := by
  cases r <;> first | rfl | cases h

/-- The successes after which a completion goes on with `getAllMatchs`. -/
inductive MatchsViewModel.Request.Reloads (order : DictOrder) :
    MatchsViewModel.Request → Answer → Prop
  | joined (m u : String) (user : UserModel) {a : Answer} (ha : ∀ e, a ≠ .error e) :
      Reloads order (.joinMatchesWrite m u user) a
  | notPlaced (m u : String) {a : Answer} (ha : ∀ e, a ≠ .error e)
      (hposition : MatchsViewModel.positionOfUser order u a.value = none) :
      Reloads order (.isUserInFootballArea m u) a
  | cleared (m k : String) {a : Answer} (ha : ∀ e, a ≠ .error e) :
      Reloads order (.deletePlayerForFootballArea m k) a
  | deleted (m : String) {a : Answer} (ha : ∀ e, a ≠ .error e) : Reloads order (.deleteMatches m) a

/-- What reloads does not store. -/
theorem stores_of_reloads {order : DictOrder} {r : MatchsViewModel.Request} {a : Answer}
    (h : r.Reloads order a) : r.stores = false := by
  cases h <;> rfl

/-- Everything a completion of `MatchsViewModel` can do. -/
inductive MatchsCompleted (self : MatchsViewModel) (orders : ℕ → DictOrder) :
    MatchsViewModel.Request → Answer → MatchsViewModel → List MatchsViewModel.Request → Prop
  | listed (a : Answer) :
      MatchsCompleted self orders .getAllMatchs a (self.getAllMatchsCompletion orders a) []
  | selected (m : String) (a : Answer) :
      MatchsCompleted self orders (.getMatchWithMatchID m) a
        (self.getMatchWithMatchIDCompletion (orders 0) a) []
  | failed {r : MatchsViewModel.Request} (e : String) (hr : r.alerts = true) :
      MatchsCompleted self orders r (.error e) ({ self with isLoad := false }.alert e) []
  | full (m u : String) (user : UserModel) {a : Answer} (ha : ∀ e, a ≠ .error e)
      (hcount : a.value.childrenCount = 14) :
      MatchsCompleted self orders (.joinMatchesRead m u user) a
        (self.alert "Bu maçın kadrosu tamamlandı !") []
  | joinWrite (m u : String) (user : UserModel) {a : Answer} (ha : ∀ e, a ≠ .error e)
      (hcount : a.value.childrenCount ≠ 14) :
      MatchsCompleted self orders (.joinMatchesRead m u user) a self [.joinMatchesWrite m u user]
  | reload {r : MatchsViewModel.Request} {a : Answer} (hr : r.Reloads (orders 0) a) :
      MatchsCompleted self orders r a { self with isLoad := true, matchsModelList := [] }
        [.getAllMatchs]
  /-- a join that fails is shown with a text of its own, and the list is loaded all the same -/
  | joinFailed (m u : String) (user : UserModel) (e : String) :
      MatchsCompleted self orders (.joinMatchesWrite m u user) (.error e)
        { self.alert "Oups!" with isLoad := true, matchsModelList := [] } [.getAllMatchs]
  | area (m u : String) {a : Answer} (ha : ∀ e, a ≠ .error e) :
      MatchsCompleted self orders (.leaveMatches m u) a { self with isLoad := true }
        [.isUserInFootballArea m u]
  | clearSlot (m u : String) {a : Answer} {position : UserPositionModel} (ha : ∀ e, a ≠ .error e)
      (hposition : MatchsViewModel.positionOfUser (orders 0) u a.value = some position) :
      MatchsCompleted self orders (.isUserInFootballArea m u) a { self with isLoad := true }
        [.deletePlayerForFootballArea m (position.positionForMatch.getD "")]
  | reselectSet (m k : String) (player : UserModel) {a : Answer} (ha : ∀ e, a ≠ .error e) :
      MatchsCompleted self orders (.setPlayerPositionWithMatch m k player) a
        { self with isLoad := false } [.getMatchWithMatchID m]
  | reselectDelete (m k : String) {a : Answer} (ha : ∀ e, a ≠ .error e) :
      MatchsCompleted self orders (.deletePlayerPositionWithMatch m k) a
        { self with isLoad := false } [.getMatchWithMatchID m]
  | reselectPlanning (m : String) (b : Bool) {a : Answer} (ha : ∀ e, a ≠ .error e) :
      MatchsCompleted self orders (.setIsPlanningCompleteForMatch m b) a
        { self with isLoad := true } [.getMatchWithMatchID m]
  | reselectComment (m key comment uuid date : String) {a : Answer} (ha : ∀ e, a ≠ .error e) :
      MatchsCompleted self orders (.addComment m key comment uuid date) a
        { self with isLoad := true } [.getMatchWithMatchID m]

/-- Sending builds the reference first. -/
theorem matchs_send_eq_ok {self vm : MatchsViewModel} {r : MatchsViewModel.Request}
    {rs : List MatchsViewModel.Request} (h : self.send r = .ok (vm, rs)) :
    vm = self ∧ rs = [r] ∧ ∃ q, r.remote = .ok q := by
  simp only [MatchsViewModel.send, bind_eq_ok, pure_eq_ok] at h
  obtain ⟨q, hq, ⟨⟩⟩ := h
  exact ⟨rfl, rfl, q, hq⟩

/-- The refresh after an assignment or its removal. -/
theorem refreshThenUnload_eq_ok {self vm : MatchsViewModel} {m : String} {a : Answer}
    {rs : List MatchsViewModel.Request} (h : self.refreshThenUnload m a = .ok (vm, rs)) :
    (∃ e, a = .error e ∧ vm = { self with isLoad := false }.alert e ∧ rs = []) ∨
      (∀ e, a ≠ .error e) ∧ vm = { self with isLoad := false } ∧
        rs = [.getMatchWithMatchID m] ∧
        ∃ q, (MatchsViewModel.Request.getMatchWithMatchID m).remote = .ok q := by
  cases a with
  | error e =>
    cases h
    exact .inl ⟨e, rfl, rfl, rfl⟩
  | _ =>
    simp only [MatchsViewModel.refreshThenUnload, MatchsViewModel.getMatchWithMatchID, bind_eq_ok,
      pure_eq_ok] at h
    obtain ⟨⟨self', rs'⟩, hsend, ⟨⟩⟩ := h
    obtain ⟨rfl, hrs, hq⟩ := matchs_send_eq_ok hsend
    exact .inr ⟨by simp, rfl, hrs, hq⟩

/-- The refresh after a planning toggle or a comment. -/
theorem unloadThenRefresh_eq_ok {self vm : MatchsViewModel} {m : String} {a : Answer}
    {rs : List MatchsViewModel.Request} (h : self.unloadThenRefresh m a = .ok (vm, rs)) :
    (∃ e, a = .error e ∧ vm = { self with isLoad := false }.alert e ∧ rs = []) ∨
      (∀ e, a ≠ .error e) ∧ vm = { self with isLoad := true } ∧
        rs = [.getMatchWithMatchID m] ∧
        ∃ q, (MatchsViewModel.Request.getMatchWithMatchID m).remote = .ok q := by
  cases a with
  | error e =>
    cases h
    exact .inl ⟨e, rfl, rfl, rfl⟩
  | _ => exact .inr ⟨by simp, matchs_send_eq_ok h⟩

/-- A completion of `MatchsViewModel` does one of the things `MatchsCompleted` lists, and builds
the reference of what it sends. -/
theorem matchsCompleted_of_complete {self vm : MatchsViewModel} {orders : ℕ → DictOrder}
    {r : MatchsViewModel.Request} {a : Answer} {rs : List MatchsViewModel.Request}
    (h : self.complete orders r a = .ok (vm, rs)) :
    MatchsCompleted self orders r a vm rs ∧ ∀ r ∈ rs, ∃ q, r.remote = .ok q := by
  have hnothing : ∀ r ∈ ([] : List MatchsViewModel.Request), ∃ q, r.remote = .ok q := by simp
  have hreload : ∀ r ∈ [MatchsViewModel.Request.getAllMatchs], ∃ q, r.remote = .ok q := by
    intro r hr
    rw [List.mem_singleton.mp hr]
    exact ⟨_, rfl⟩
  -- the requests whose answers are stored first; all others stop at an error
  cases r with
  | getAllMatchs =>
    cases h
    exact ⟨.listed a, hnothing⟩
  | getMatchWithMatchID m =>
    cases h
    exact ⟨.selected m a, hnothing⟩
  | joinMatchesWrite m u user =>
    cases a with
    | error e =>
      cases h
      exact ⟨.joinFailed m u user e, hreload⟩
    | _ =>
      cases h
      exact ⟨.reload (.joined m u user (by simp)), hreload⟩
  | joinMatchesRead m u user =>
    cases a with
    | error e =>
      cases h
      exact ⟨.failed e rfl, hnothing⟩
    | _ =>
      simp only [MatchsViewModel.complete, MatchsViewModel.joinMatchesReadCompletion] at h
      split_ifs at h with hcount
      · cases h
        exact ⟨.full m u user (by simp) hcount, hnothing⟩
      · obtain ⟨rfl, rfl, hq⟩ := matchs_send_eq_ok h
        exact ⟨.joinWrite m u user (by simp) hcount, by simpa using hq⟩
  | isUserInFootballArea m u =>
    cases a with
    | error e =>
      cases h
      exact ⟨.failed e rfl, hnothing⟩
    | _ =>
      simp only [MatchsViewModel.complete, MatchsViewModel.isUserInFootballAreaCompletion] at h
      split at h
      · -- the user was found in a slot
        rename_i position hposition
        obtain ⟨rfl, rfl, hq⟩ := matchs_send_eq_ok h
        exact ⟨.clearSlot m u (by simp) hposition, by simpa using hq⟩
      · rename_i hnone
        cases h
        exact ⟨.reload (.notPlaced m u (by simp) hnone), hreload⟩
  | deletePlayerForFootballArea m k =>
    cases a with
    | error e =>
      cases h
      exact ⟨.failed e rfl, hnothing⟩
    | _ =>
      cases h
      exact ⟨.reload (.cleared m k (by simp)), hreload⟩
  | leaveMatches m u =>
    cases a with
    | error e =>
      cases h
      exact ⟨.failed e rfl, hnothing⟩
    | _ =>
      obtain ⟨rfl, rfl, hq⟩ := matchs_send_eq_ok h
      exact ⟨.area m u (by simp), by simpa using hq⟩
  | deleteMatches m =>
    cases a with
    | error e =>
      cases h
      exact ⟨.failed e rfl, hnothing⟩
    | _ =>
      cases h
      exact ⟨.reload (.deleted m (by simp)), hreload⟩
  | setPlayerPositionWithMatch m k player =>
    rcases refreshThenUnload_eq_ok h with ⟨e, rfl, rfl, rfl⟩ | ⟨ha, rfl, rfl, hq⟩
    · exact ⟨.failed e rfl, hnothing⟩
    · exact ⟨.reselectSet m k player ha, by simpa using hq⟩
  | deletePlayerPositionWithMatch m k =>
    rcases refreshThenUnload_eq_ok h with ⟨e, rfl, rfl, rfl⟩ | ⟨ha, rfl, rfl, hq⟩
    · exact ⟨.failed e rfl, hnothing⟩
    · exact ⟨.reselectDelete m k ha, by simpa using hq⟩
  | setIsPlanningCompleteForMatch m b =>
    rcases unloadThenRefresh_eq_ok h with ⟨e, rfl, rfl, rfl⟩ | ⟨ha, rfl, rfl, hq⟩
    · exact ⟨.failed e rfl, hnothing⟩
    · exact ⟨.reselectPlanning m b ha, by simpa using hq⟩
  | addComment m key comment uuid date =>
    rcases unloadThenRefresh_eq_ok h with ⟨e, rfl, rfl, rfl⟩ | ⟨ha, rfl, rfl, hq⟩
    · exact ⟨.failed e rfl, hnothing⟩
    · exact ⟨.reselectComment m key comment uuid date ha, by simpa using hq⟩

/-- The requests of `login` and `register`. -/
def BaseViewModel.Request.account : BaseViewModel.Request → Bool
  | .login _ _ => true
  | .registerCreate _ _ _ => true
  | .registerWrite _ _ _ => true
  | _ => false

/-- Everything a completion of `BaseViewModel` can do. -/
inductive BaseCompleted (self : BaseViewModel) (currentUserID : Option String) :
    BaseViewModel.Request → Answer → BaseViewModel → List BaseViewModel.Request → Prop
  | refused {r : BaseViewModel.Request} (e : String) (hr : r.account = true) :
      BaseCompleted self currentUserID r (.error e) (self.refuse e) []
  | signedIn (email password : String) {a : Answer} (ha : ∀ e, a ≠ .error e) :
      BaseCompleted self currentUserID (.login email password) a self [.loginCallback]
  | loggedIn (a : Answer) :
      BaseCompleted self currentUserID .loginCallback a
        { self with isLoad := false, isLoggedIn := true } []
  | created (email password nameSurname : String) {a : Answer} (ha : ∀ e, a ≠ .error e) :
      BaseCompleted self currentUserID (.registerCreate email password nameSurname) a self
        [.registerCallback (a.uid.getD "") email nameSurname]
  | recorded (uid email nameSurname : String) (a : Answer) {currentUser : String}
      (huid : currentUserID = some currentUser) :
      BaseCompleted self currentUserID (.registerCallback uid email nameSurname) a self
        [.registerWrite currentUser email nameSurname]
  | notRecorded (uid email nameSurname : String) (a : Answer) (huid : currentUserID = none) :
      BaseCompleted self currentUserID (.registerCallback uid email nameSurname) a
        (self.refuse "Bir Hata Meydana Geldi !") []
  | registered (uid email nameSurname : String) {a : Answer} (ha : ∀ e, a ≠ .error e) :
      BaseCompleted self currentUserID (.registerWrite uid email nameSurname) a
        { self with isLoad := false, isLoggedIn := true } []
  | fetched (uid : String) (a : Answer) :
      BaseCompleted self currentUserID (.getCurrentUserData uid) a
        (self.getCurrentUserDataCompletion a) []
  | uploaded (uid : String) {a : Answer} (ha : ∀ e, a ≠ .error e) :
      BaseCompleted self currentUserID (.loadProfileImagePut uid) a self [.loadProfileImageURL uid]
  | located (uid url : String) :
      BaseCompleted self currentUserID (.loadProfileImageURL uid) (.url url) self
        [.loadProfileImageWrite uid url]
  | notUploaded (uid e : String) :
      BaseCompleted self currentUserID (.loadProfileImagePut uid) (.error e)
        { self with isLoad := false } []
  | notLocated (uid : String) {a : Answer} (ha : ∀ url, a ≠ .url url) :
      BaseCompleted self currentUserID (.loadProfileImageURL uid) a { self with isLoad := false } []
  | pictured (uid url : String) (a : Answer) :
      BaseCompleted self currentUserID (.loadProfileImageWrite uid url) a
        (self.loadProfileImageWriteCompletion url a) []

/-- A completion of `BaseViewModel` does one of the things `BaseCompleted` lists, and builds the
reference of what it sends. -/
theorem baseCompleted_of_complete {self vm : BaseViewModel} {currentUserID : Option String}
    {r : BaseViewModel.Request} {a : Answer} {rs : List BaseViewModel.Request}
    (h : self.complete currentUserID r a = .ok (vm, rs)) :
    BaseCompleted self currentUserID r a vm rs ∧ ∀ r ∈ rs, ∃ q, r.remote = .ok q := by
  have hnothing : ∀ r ∈ ([] : List BaseViewModel.Request), ∃ q, r.remote = .ok q := by simp
  have hsend : ∀ {self : BaseViewModel} {r}, self.send r = .ok (vm, rs) →
      vm = self ∧ rs = [r] ∧ ∃ q, r.remote = .ok q := by
    intro self r h
    simp only [BaseViewModel.send, bind_eq_ok, pure_eq_ok] at h
    obtain ⟨q, hq, ⟨⟩⟩ := h
    exact ⟨rfl, rfl, q, hq⟩
  cases r with
  | login email password =>
    cases a with
    | error e =>
      cases h
      exact ⟨.refused e rfl, hnothing⟩
    | _ =>
      obtain ⟨rfl, rfl, hq⟩ := hsend h
      exact ⟨.signedIn email password (by simp), by simpa using hq⟩
  | loginCallback =>
    cases h
    exact ⟨.loggedIn a, hnothing⟩
  | registerCreate email password nameSurname =>
    cases a with
    | error e =>
      cases h
      exact ⟨.refused e rfl, hnothing⟩
    | _ =>
      obtain ⟨rfl, rfl, hq⟩ := hsend h
      exact ⟨.created email password nameSurname (by simp), by simpa using hq⟩
  | registerCallback uid email nameSurname =>
    simp only [BaseViewModel.complete, BaseViewModel.registerCreateCompletion] at h
    split at h
    · obtain ⟨rfl, rfl, hq⟩ := hsend h
      exact ⟨.recorded uid email nameSurname a rfl, by simpa using hq⟩
    · cases h
      exact ⟨.notRecorded uid email nameSurname a rfl, hnothing⟩
  | registerWrite uid email nameSurname =>
    cases a with
    | error e =>
      cases h
      exact ⟨.refused e rfl, hnothing⟩
    | _ =>
      cases h
      exact ⟨.registered uid email nameSurname (by simp), hnothing⟩
  | getCurrentUserData uid =>
    cases h
    exact ⟨.fetched uid a, hnothing⟩
  | loadProfileImagePut uid =>
    cases a with
    | error e =>
      cases h
      exact ⟨.notUploaded uid e, hnothing⟩
    | _ =>
      obtain ⟨rfl, rfl, hq⟩ := hsend h
      exact ⟨.uploaded uid (by simp), by simpa using hq⟩
  | loadProfileImageURL uid =>
    cases a with
    | url url =>
      obtain ⟨rfl, rfl, hq⟩ := hsend h
      exact ⟨.located uid url, by simpa using hq⟩
    | _ =>
      cases h
      exact ⟨.notLocated uid (by simp), hnothing⟩
  | loadProfileImageWrite uid url =>
    cases h
    exact ⟨.pictured uid url a, hnothing⟩

/-- A completion runs in one view model. -/
inductive Completed (c : Client) (orders : ℕ → DictOrder) :
    Request → Answer → Client → List Request → Prop
  /-- Auth changes the session first -/
  | base {r : BaseViewModel.Request} {a : Answer} {vm : BaseViewModel}
      {rs : List BaseViewModel.Request}
      (h : BaseCompleted c.base (c.authenticated r a).currentUser r a vm rs) :
      Completed c orders (.base r) a { c.authenticated r a with base := vm } (rs.map .base)
  | matchs {r : MatchsViewModel.Request} {a : Answer} {vm : MatchsViewModel}
      {rs : List MatchsViewModel.Request} (h : MatchsCompleted c.matchs orders r a vm rs) :
      Completed c orders (.matchs r) a { c with matchs := vm } (rs.map .matchs)
  | createMatch (r : CreateMatchViewModel.Request) (a : Answer) :
      Completed c orders (.createMatch r) a
        { c with createMatch := c.createMatch.complete r a } []
  | players (r : PlayersViewModel.Request) (a : Answer) :
      Completed c orders (.players r) a { c with players := c.players.complete r a } []
  | updateProfile (r : UpdateProfileViewModel.Request) (a : Answer) :
      Completed c orders (.updateProfile r) a
        { c with updateProfile := c.updateProfile.complete r a } []

/-- Auth touches nothing but its current user. -/
theorem authenticated_base (c : Client) (r : BaseViewModel.Request) (a : Answer) :
    (c.authenticated r a).base = c.base := by
  unfold Client.authenticated
  split <;> rfl

/-- A completion does one of the things `Completed` lists. -/
theorem completed_of_complete {c c' : Client} {orders : ℕ → DictOrder} {r : Request} {a : Answer}
    {rs : List Request} (h : c.complete orders r a = .ok (c', rs)) :
    Completed c orders r a c' rs ∧ ∀ r ∈ rs, ∃ q, r.remote = .ok q := by
  rcases r with r | r | r | r | r
  · simp only [Client.complete, Client.withBase, map_eq_ok, Prod.exists, Prod.mk.injEq,
      authenticated_base] at h
    obtain ⟨vm, rs', hvm, rfl, rfl⟩ := h
    obtain ⟨hcompleted, hsent⟩ := baseCompleted_of_complete hvm
    exact ⟨.base hcompleted, by simpa [Request.remote] using hsent⟩
  · simp only [Client.complete, Client.withMatchs, map_eq_ok, Prod.exists, Prod.mk.injEq] at h
    obtain ⟨vm, rs', hvm, rfl, rfl⟩ := h
    obtain ⟨hcompleted, hsent⟩ := matchsCompleted_of_complete hvm
    exact ⟨.matchs hcompleted, by simpa [Request.remote] using hsent⟩
  · cases h
    exact ⟨.createMatch r a, by simp⟩
  · cases h
    exact ⟨.players r a, by simp⟩
  · cases h
    exact ⟨.updateProfile r a, by simp⟩

/-- Everything a completion can put in flight, with a reference that could be built. -/
theorem issues_of_complete {c c' : Client} {orders : ℕ → DictOrder} {r : Request} {a : Answer}
    {rs : List Request} (h : c.complete orders r a = .ok (c', rs)) {r' : Request} (hr : r' ∈ rs) :
    CompletionIssues (orders 0) r a r' ∧ ∃ q, r'.remote = .ok q := by
  obtain ⟨hcompleted, hsent⟩ := completed_of_complete h
  refine ⟨?_, hsent r' hr⟩
  cases hcompleted with
  | base hbase =>
    obtain ⟨r₁, hr₁, rfl⟩ := List.mem_map.mp hr
    cases hbase with
    | signedIn email password ha =>
      rw [List.mem_singleton.mp hr₁]
      exact .loginCallback email password ha
    | created email password nameSurname ha =>
      rw [List.mem_singleton.mp hr₁]
      exact .registerCallback email password nameSurname ha
    | recorded uid email nameSurname a _ =>
      rw [List.mem_singleton.mp hr₁]
      exact .record uid email nameSurname a _
    | uploaded uid _ =>
      rw [List.mem_singleton.mp hr₁]
      exact .imageURL uid _
    | located uid url =>
      rw [List.mem_singleton.mp hr₁]
      exact .imageWrite uid url
    | _ => cases hr₁
  | matchs hmatchs =>
    obtain ⟨r₁, hr₁, rfl⟩ := List.mem_map.mp hr
    cases hmatchs with
    | joinWrite m u user ha hcount =>
      rw [List.mem_singleton.mp hr₁]
      exact .joinWrite m u user ha hcount
    | reload _ =>
      rw [List.mem_singleton.mp hr₁]
      exact .reload _ _
    | joinFailed _ _ _ _ =>
      rw [List.mem_singleton.mp hr₁]
      exact .reload _ _
    | area m u ha =>
      rw [List.mem_singleton.mp hr₁]
      exact .area m u ha
    | clearSlot m u ha hposition =>
      rw [List.mem_singleton.mp hr₁]
      exact .clearSlot m u ha hposition
    | reselectSet | reselectDelete | reselectPlanning | reselectComment =>
      rw [List.mem_singleton.mp hr₁]
      constructor
    | _ => cases hr₁
  | _ => cases hr

/-! ## Requests in flight can be sent -/

/-- The reference of every request in flight could be built. -/
def Sent (w : World) : Prop :=
  ∀ fl ∈ w.flights, ∃ q, fl.request.remote = .ok q

/-- The clients build the references, so this holds however the server serves. -/
theorem sent_of_quiet (serve : Firebase → Request → Outcome → Firebase × Answer)
    {C : World → Label → Prop} {w₀ w : World} (h₀ : w₀.flights = [])
    (hrun : Run.Reaches { App.service with serve := serve }.step C w₀ w) : Sent w := by
  refine Async.flight_invariant (P := { App.service with serve := serve }) hrun h₀ ?_ ?_ ?_
  · intro w i op c rs r _ _ hcall hr
    exact (issues_of_call (toOption_eq_some.mp hcall) hr).2
  · intro w n o fl _ _ _ _ hsent
    exact hsent
  · intro w n d fl a c rs r _ _ _ _ _ hcomplete hr
    exact (issues_of_complete (toOption_eq_some.mp hcomplete) hr).2

/-- Every request in flight has been sent, whatever has happened. -/
theorem sent_of_reaches {C : World → Label → Prop} {server : Firebase}
    {sessions : ℕ → Option String} {w : World}
    (hrun : Run.Reaches App.step C (World.start server sessions) w) : Sent w :=
  sent_of_quiet (fun s r o => r.serve s o) rfl hrun

end TifaSoccer

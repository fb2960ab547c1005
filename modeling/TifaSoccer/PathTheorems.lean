import TifaSoccer.KeyTheorems

/-!
# No empty path component

`child` raises on an empty string, which ends the app. When the keys of the system are not empty
(`TifaSoccer.KeyTheorems`), every call a screen makes and every completion can build its
reference, with one exception: a comment takes the id of the selected match, which is empty
until a match has been stored.
-/

namespace TifaSoccer

open Async Run

/-! ## Components -/

/-- The strings from which a request of `MatchsViewModel` builds its reference with `child`. -/
def MatchsViewModel.Request.components : MatchsViewModel.Request → List String
  | .getAllMatchs => []
  | .joinMatchesRead matchsID _ _ => [matchsID, "players"]
  | .joinMatchesWrite matchsID currentUserID _ => [matchsID, "players", currentUserID]
  | .isUserInFootballArea matchID _ => [matchID]
  | .deletePlayerForFootballArea matchID position => [matchID, "Positions", position]
  | .leaveMatches matchsID currentUserID => [matchsID, "players", currentUserID]
  | .deleteMatches matchsID => [matchsID]
  | .setPlayerPositionWithMatch matchID playerPosition _ => [matchID, "Positions", playerPosition]
  | .deletePlayerPositionWithMatch matchID playerPosition => [matchID, "Positions", playerPosition]
  | .getMatchWithMatchID matchID => [matchID]
  | .setIsPlanningCompleteForMatch matchID _ => [matchID, "isPlanningComplete"]
  | .addComment matchID key _ _ _ => [matchID, "Comments", key]

/-- A reference can be built exactly when none of its components is empty. -/
theorem remote_iff_components (r : MatchsViewModel.Request) :
    (∃ q, r.remote = .ok q) ↔ "" ∉ r.components := by
  cases r <;>
    simp [MatchsViewModel.Request.remote, MatchsViewModel.Request.components, getReference,
      @eq_comm String ""]

/-- A request whose path has no empty component is sent. -/
theorem send_of_components {self : MatchsViewModel} {r : MatchsViewModel.Request}
    (h : "" ∉ r.components) : ∃ x, self.send r = .ok x := by
  obtain ⟨q, hq⟩ := (remote_iff_components r).mpr h
  exact ⟨(self, [r]), by simp [MatchsViewModel.send, hq, bind, Except.bind, pure, Except.pure]⟩

/-! ## Nothing raises -/

/-- A map raises nothing. -/
theorem map_ok {ε α β : Type} {x : Except ε α} {f : α → β} (h : ∃ a, x = .ok a) :
    ∃ b, x.map f = .ok b := by
  obtain ⟨a, rfl⟩ := h
  exact ⟨f a, rfl⟩

/-- The screen of a client raises only what the view model does. -/
theorem withMatchs_ok (c : Client) (self : MatchsViewModel) {r : MatchsViewModel.Request}
    (h : "" ∉ r.components) : ∃ x, c.withMatchs (self.send r) = .ok x :=
  map_ok (send_of_components h)

/-- So for the account. -/
theorem withBase_ok (c : Client) (self : BaseViewModel) {r : BaseViewModel.Request} {q : Remote}
    (hq : r.remote = .ok q) : ∃ x, c.withBase (self.send r) = .ok x := by
  refine map_ok ⟨(self, [r]), ?_⟩
  simp [BaseViewModel.send, hq, bind, Except.bind, pure, Except.pure]

/-- A match with an unplaced player is not the empty one the client starts with. -/
theorem selected_of_menuOffers {c : Client} (h : ClientSound c) (hexact : UnselectedExact c)
    {k : String} {player : UserModel} (hmenu : c.menuOffers k player) :
    ∃ m, m ≠ "" ∧ c.matchs.selectedMatch.matchID = some m := by
  rcases h.selected with hinit | hm
  · have hmem : player ∈ c.matchs.unselectedPlayer := hmenu.1
    rw [hexact, hinit] at hmem
    cases hmem
  · exact hm

/-- The matches a client lists can be named in a path. -/
theorem listed_ne_empty {c : Client} (h : ClientSound c) {m : String}
    (hlisted : ∃ match' ∈ c.matchs.matchsModelList, match'.matchID.getD "" = m) : m ≠ "" := by
  obtain ⟨match', hmatch, rfl⟩ := hlisted
  obtain ⟨id, hne, hid⟩ := h.list match' hmatch
  rw [hid]
  exact hne

/-- A call that a screen makes in a sound state builds its reference. -/
theorem call_ok {c : Client} {op : Op} (h : ClientSound c) (hexact : UnselectedExact c)
    (hsupplies : c.Supplies op)
    (hcomment : op.comments = true → c.matchs.selectedMatch ≠ MatchsModel.init .byKey []) :
    ∃ x, c.call op = .ok x := by
  cases op with
  | login email password => exact withBase_ok _ _ rfl
  | register email password nameSurname => exact withBase_ok _ _ rfl
  | signOut throws => cases throws <;> exact ⟨_, rfl⟩
  | getCurrentUserData =>
    unfold Client.call BaseViewModel.getCurrentUserData
    cases huid : c.currentUser with
    | none => exact ⟨_, rfl⟩
    | some uid =>
      have hne := h.current uid huid
      exact withBase_ok _ _ (q := .getData ["Users", uid])
        (by simp [BaseViewModel.Request.remote, getReference, hne])
  | loadProfileImage =>
    unfold Client.call BaseViewModel.loadProfileImage
    cases huid : c.currentUser with
    | none => exact ⟨_, rfl⟩
    | some uid => exact withBase_ok _ _ rfl
  | getAllMatchs => exact ⟨_, rfl⟩
  | joinMatches m user =>
    obtain ⟨-, match', hmatch, hid, -⟩ := hsupplies
    have hm : m ≠ "" := listed_ne_empty h ⟨match', hmatch, by rw [hid]; rfl⟩
    simp only [Client.call, MatchsViewModel.joinMatches]
    cases hu : user.uuid with
    | none => exact ⟨_, rfl⟩
    | some u => exact withMatchs_ok _ _ (by simp [MatchsViewModel.Request.components, hm.symm])
  | leaveMatches m =>
    obtain ⟨-, match', hmatch, hid, -⟩ := hsupplies
    have hm : m ≠ "" := listed_ne_empty h ⟨match', hmatch, by rw [hid]; rfl⟩
    unfold Client.call MatchsViewModel.leaveMatches
    cases huid : c.currentUser with
    | none => exact ⟨_, rfl⟩
    | some uid =>
      have hne := h.current uid huid
      exact withMatchs_ok _ _ (by simp [MatchsViewModel.Request.components, hm.symm, hne.symm])
  | deleteMatches m =>
    have hm : m ≠ "" := listed_ne_empty h hsupplies
    exact withMatchs_ok _ _ (by simp [MatchsViewModel.Request.components, hm.symm])
  | openDetail m =>
    have hm : m ≠ "" := listed_ne_empty h hsupplies
    exact withMatchs_ok _ _ (by simp [MatchsViewModel.Request.components, hm.symm])
  | closeDetail => exact ⟨_, rfl⟩
  | getMatchWithMatchID m =>
    have hm : m ≠ "" := h.detail m hsupplies
    exact withMatchs_ok _ _ (by simp [MatchsViewModel.Request.components, hm.symm])
  | setPlayerPositionWithMatch m k player =>
    obtain ⟨-, hid, ⟨position, -, hk⟩, hmenu⟩ := hsupplies
    obtain ⟨id, hne, hselected⟩ := selected_of_menuOffers h hexact hmenu
    have hm : m ≠ "" := by rwa [hid, hselected]
    have hk : k ≠ "" := hk ▸ rawValue_ne_empty position
    exact withMatchs_ok _ _ (by simp [MatchsViewModel.Request.components, hm.symm, hk.symm])
  | deletePlayerPositionWithMatch m k =>
    obtain ⟨hdetail, ⟨position, -, hk⟩, -⟩ := hsupplies
    have hm : m ≠ "" := h.detail m hdetail
    have hk : k ≠ "" := hk ▸ rawValue_ne_empty position
    exact withMatchs_ok _ _ (by simp [MatchsViewModel.Request.components, hm.symm, hk.symm])
  | setIsPlanningCompleteForMatch m =>
    have hm : m ≠ "" := h.detail m hsupplies
    unfold Client.call MatchsViewModel.setIsPlanningCompleteForMatch
    cases hflag : c.matchs.selectedMatch.isPlanningComplete with
    | none => simp only [hflag]; exact ⟨_, rfl⟩
    | some flag =>
      simp only [hflag]
      exact withMatchs_ok _ _ (by simp [MatchsViewModel.Request.components, hm.symm])
  | addComment comment uuid date key =>
    -- the only call that takes a match id from a cache no answer may have filled yet
    obtain ⟨m, hne, hm⟩ := h.selected.resolve_left (hcomment rfl)
    have hkey : key ≠ "" := hsupplies.2
    unfold Client.call MatchsViewModel.addComment
    simp only [hm]
    exact withMatchs_ok _ _ (by simp [MatchsViewModel.Request.components, hne.symm, hkey.symm])
  | createMatch m adminMessage footballArea startDate finishDate =>
    have hm : m ≠ "" := hsupplies.1
    refine map_ok ?_
    simp [CreateMatchViewModel.createMatch, CreateMatchViewModel.Request.remote, getReference,
      Ref.child, hm, bind, Except.bind, pure, Except.pure]
  | getAllPlayers => exact ⟨_, rfl⟩
  | updatePlayerData nameSurname position =>
    refine map_ok ?_
    unfold UpdateProfileViewModel.updatePlayerData
    cases huid : c.currentUser with
    | none => exact ⟨_, rfl⟩
    | some uid =>
      have hne := h.current uid huid
      simp [UpdateProfileViewModel.Request.remote, getReference, Ref.child, hne, bind,
        Except.bind, pure, Except.pure]
  | dismissAlert => exact ⟨_, rfl⟩

/-- The refresh that comes first raises nothing for a match with an id. -/
theorem refreshThenUnload_ok {c : Client} {m : String} {a : Answer} (hm : "" ≠ m) :
    ∃ x, c.withMatchs (c.matchs.refreshThenUnload m a) = .ok x := by
  cases a with
  | error e => exact ⟨_, rfl⟩
  | _ =>
    refine map_ok ?_
    simp [MatchsViewModel.refreshThenUnload, MatchsViewModel.getMatchWithMatchID,
      MatchsViewModel.send, MatchsViewModel.Request.remote, getReference, Ref.child, hm.symm, bind,
      Except.bind, pure, Except.pure]

/-- So for the refresh that comes last. -/
theorem unloadThenRefresh_ok {c : Client} {m : String} {a : Answer} (hm : "" ≠ m) :
    ∃ x, c.withMatchs (c.matchs.unloadThenRefresh m a) = .ok x := by
  cases a with
  | error e => exact ⟨_, rfl⟩
  | _ => exact withMatchs_ok _ _ (by simp [MatchsViewModel.Request.components, hm])

/-- The completions of `MatchsViewModel`: the request of the answer was sent, and so will be the
next one. -/
theorem complete_matchs_ok {c : Client} {orders : ℕ → DictOrder} {r : MatchsViewModel.Request}
    {a : Answer} (hsent : "" ∉ r.components) (hrequest : RequestSound (.matchs r))
    (hanswer : AnswerSound (.matchs r) a) :
    ∃ x, c.withMatchs (c.matchs.complete orders r a) = .ok x := by
  cases r with
  | getAllMatchs => exact ⟨_, rfl⟩
  | joinMatchesRead m u user =>
    -- the uuid goes into a path only now, in the second request
    have hu : u ≠ "" := hrequest.joining m u user rfl
    have hm : "" ≠ m := by simpa [MatchsViewModel.Request.components] using hsent
    cases a with
    | error e => exact ⟨_, rfl⟩
    | _ =>
      simp only [MatchsViewModel.complete, MatchsViewModel.joinMatchesReadCompletion]
      split_ifs
      · exact ⟨_, rfl⟩
      · exact withMatchs_ok _ _ (by simp [MatchsViewModel.Request.components, hm, hu.symm])
  | joinMatchesWrite m u user => exact ⟨_, rfl⟩
  | isUserInFootballArea m u =>
    have hm : "" ≠ m := by simpa [MatchsViewModel.Request.components] using hsent
    cases a with
    | error e => exact ⟨_, rfl⟩
    | _ =>
      simp only [MatchsViewModel.complete, MatchsViewModel.isUserInFootballAreaCompletion]
      split
      · rename_i position hposition
        have hk := hanswer.position m u rfl (orders 0) position hposition
        exact withMatchs_ok _ _ (by simp [MatchsViewModel.Request.components, hm, hk.symm])
      · exact ⟨_, rfl⟩
  | deletePlayerForFootballArea m k => exact ⟨_, rfl⟩
  | leaveMatches m u =>
    have hm : "" ≠ m := fun h => hsent (by simp [MatchsViewModel.Request.components, h])
    cases a with
    | error e => exact ⟨_, rfl⟩
    | _ => exact withMatchs_ok _ _ (by simp [MatchsViewModel.Request.components, hm])
  | deleteMatches m => exact ⟨_, rfl⟩
  | getMatchWithMatchID m => exact ⟨_, rfl⟩
  | setPlayerPositionWithMatch m k player =>
    exact refreshThenUnload_ok fun h => hsent (by simp [MatchsViewModel.Request.components, h])
  | deletePlayerPositionWithMatch m k =>
    exact refreshThenUnload_ok fun h => hsent (by simp [MatchsViewModel.Request.components, h])
  | setIsPlanningCompleteForMatch m flag =>
    exact unloadThenRefresh_ok fun h => hsent (by simp [MatchsViewModel.Request.components, h])
  | addComment m key comment uuid date =>
    exact unloadThenRefresh_ok fun h => hsent (by simp [MatchsViewModel.Request.components, h])

/-- The completions of `BaseViewModel`; Auth has set the current user. -/
theorem complete_base_ok {c : Client} {r : BaseViewModel.Request} {a : Answer}
    (hcurrent : ∀ uid ∈ c.currentUser, uid ≠ "") (hrequest : RequestSound (.base r)) :
    ∃ x, c.withBase (c.base.complete c.currentUser r a) = .ok x := by
  cases r with
  | login email password =>
    cases a with
    | error e => exact ⟨_, rfl⟩
    | _ => exact withBase_ok _ _ rfl
  | registerCreate email password nameSurname =>
    cases a with
    | error e => exact ⟨_, rfl⟩
    | _ => exact withBase_ok _ _ rfl
  | registerCallback uid' email nameSurname =>
    simp only [BaseViewModel.complete, BaseViewModel.registerCreateCompletion]
    cases huid : c.currentUser with
    | none => exact ⟨_, rfl⟩
    | some uid =>
      have hne := hcurrent uid huid
      exact withBase_ok _ _ (q := .setValue ["Users", uid]
          (.object (BaseViewModel.registerParams uid email nameSurname)))
        (by simp [BaseViewModel.Request.remote, getReference, hne])
  | loadProfileImagePut uid =>
    cases a with
    | error e => exact ⟨_, rfl⟩
    | _ => exact withBase_ok _ _ rfl
  | loadProfileImageURL uid =>
    have hne : uid ≠ "" := hrequest.uploading uid (.inr rfl)
    cases a with
    | url url =>
      exact withBase_ok _ _ (q := .setValue ["Users", uid, "picture"] (.leaf (.str url)))
        (by simp [BaseViewModel.Request.remote, getReference, hne])
    | _ => exact ⟨_, rfl⟩
  | _ => exact ⟨_, rfl⟩

/-- Auth signs in only accounts with uids. -/
theorem authenticated_ne_empty {c : Client} {r : BaseViewModel.Request} {a : Answer}
    (h : ClientSound c) (hanswer : AnswerSound (.base r) a) :
    ∀ uid ∈ (c.authenticated r a).currentUser, uid ≠ "" := by
  intro uid huid
  unfold Client.authenticated at huid
  split at huid
  · cases huid
    exact hanswer.signedIn rfl uid rfl
  · cases huid
    exact hanswer.signedIn rfl uid rfl
  · exact h.current uid huid

/-- A sound answer to a sound request makes no completion raise. -/
theorem complete_ok {c : Client} (orders : ℕ → DictOrder) {r : Request} {a : Answer}
    (h : ClientSound c) (hsent : ∃ q, r.remote = .ok q) (hrequest : RequestSound r)
    (hanswer : AnswerSound r a) : ∃ x, c.complete orders r a = .ok x := by
  rcases r with r | r | r | r | r
  · exact complete_base_ok (authenticated_ne_empty h hanswer) hrequest
  · exact complete_matchs_ok ((remote_iff_components r).mp hsent) hrequest hanswer
  · exact ⟨_, rfl⟩
  · exact ⟨_, rfl⟩
  · exact ⟨_, rfl⟩

/-! ## The whole system -/

/-- The step passes an empty string to `child`, which ends the app of one client. -/
def Raises (w : World) : Label → Prop
  | .call i op => ∃ e, (w.clients i).call op = .error e
  | .deliver n orders => ∃ fl a e, w.flights[n]? = some fl ∧ fl.answer = some a ∧
      (w.clients fl.owner).complete orders fl.request a = .error e
  | .serve _ _ => False

/-- In every run from an empty database in which the screens make the calls, a match or record
is filled only while it exists and comments are sent only after a match has been stored, no step
passes an empty string to `child`. -/
theorem no_empty_component {server : Firebase} {sessions : ℕ → Option String} {w : World}
    (hempty : server.database = .null) (haccounts : ∀ a ∈ server.accounts, a.uid ≠ "")
    (hsessions : ∀ i, ∀ uid ∈ sessions i, uid ≠ "")
    (hrun : Reaches App.step PathsComplete (World.start server sessions) w) {l : Label}
    (hcond : PathsComplete w l) : ¬ Raises w l := by
  have hclients := clientSound_of_reaches hempty haccounts hsessions hrun
  cases l with
  | call i op =>
    rintro ⟨e, he⟩
    obtain ⟨x, hx⟩ := call_ok (hclients i) ((unselectedExact_of_reaches hrun).1 i)
      hcond.1.1 hcond.1.2
    rw [hx] at he
    cases he
  | serve n o => exact id
  | deliver n orders =>
    rintro ⟨fl, a, e, hget, ha, he⟩
    have hmem : fl ∈ w.flights := List.mem_of_getElem? hget
    obtain ⟨x, hx⟩ := complete_ok orders (hclients fl.owner) (sent_of_reaches hrun fl hmem)
      (requestSound_of_reaches hempty haccounts hsessions hrun fl hmem)
      (answerSound_of_reaches hempty haccounts hrun fl hmem a ha)
    rw [hx] at he
    cases he

/-- Client 1 creates the match `m`; client 0 sees it in its list and opens its screen. -/
def openCreated : List Label :=
  [.call 1 (.createMatch "m" "message" "area" 0 1)] ++ roundTrip 0 {} ++
    [.call 0 .getAllMatchs] ++ roundTrip 0 {} ++ [.call 0 (.openDetail "m")]

/-- A comment on a match that has been fetched. -/
theorem no_empty_component_after_fetch :
    ∃ w, exec (restrict App.step PathsComplete) (World.start ⟨.null, []⟩ fun _ => some "n")
        (openCreated ++ roundTrip 0 {}) = some w ∧
      PathsComplete w (.call 0 (.addComment "hi" "uuid" "date" "key")) ∧
      ¬ Raises w (.call 0 (.addComment "hi" "uuid" "date" "key")) := by
  obtain ⟨w, hw, hcond⟩ := Option.map_eq_some_iff.mp (show (exec (restrict App.step PathsComplete)
    (World.start ⟨.null, []⟩ fun _ => some "n") (openCreated ++ roundTrip 0 {})).map
    (fun w => decide (PathsComplete w (.call 0 (.addComment "hi" "uuid" "date" "key")))) = some true
    from by decide +kernel)
  have hcond := of_decide_eq_true hcond
  refine ⟨w, hw, hcond, no_empty_component rfl (fun a ha => by cases ha) (fun i uid huid => ?_)
    (reaches_of_exec hw) hcond⟩
  cases huid
  decide

/-- When the fetch of the screen fails, the send button of the comments passes the empty match id
of the match the client started with. -/
theorem comment_without_match_raises :
    ∃ w, exec (restrict App.step (OnCall fun w i op => (w.clients i).Supplies op))
        (World.start ⟨.null, []⟩ fun _ => some "n")
        (openCreated ++ roundTrip 0 { error := some "offline" } ++ [.call 0 .dismissAlert]) =
        some w ∧
      (w.clients 0).matchs.isLoad = false ∧
      (w.clients 0).Supplies (.addComment "hi" "uuid" "date" "key") ∧
      Raises w (.call 0 (.addComment "hi" "uuid" "date" "key")) := by
  obtain ⟨w, hw, hend⟩ := Option.map_eq_some_iff.mp (show (exec (restrict App.step
    (OnCall fun w i op => (w.clients i).Supplies op)) (World.start ⟨.null, []⟩ fun _ => some "n")
    (openCreated ++ roundTrip 0 { error := some "offline" } ++ [.call 0 .dismissAlert])).map
    (fun w => ((w.clients 0).matchs.isLoad,
        decide ((w.clients 0).Supplies (.addComment "hi" "uuid" "date" "key")),
        (w.clients 0).matchs.selectedMatch.matchID)) = some (false, true, some "")
    from by decide +kernel)
  simp only [Prod.mk.injEq] at hend
  obtain ⟨hload, hsupplies, hid⟩ := hend
  refine ⟨w, hw, hload, of_decide_eq_true hsupplies, ?_⟩
  simp [Raises, Client.call, MatchsViewModel.addComment, hid, Client.withMatchs,
    MatchsViewModel.send, MatchsViewModel.Request.remote, Ref.child, bind, Except.bind, Except.map]

end TifaSoccer

import TifaSoccer.DetailTheorems
import TifaSoccer.LeaveTheorems
import TifaSoccer.SessionTheorems

/-!
# Keys

The decoders put an empty string in the place of a missing field. That the keys the app uses are
never empty goes through the whole system, layer by layer:

* the documents, records, slots and accounts on the server carry their own keys;
* so does what is read from them, in the answers in flight;
* so do the caches of the clients, which only answers fill;
* so do the requests in flight, which are made from the caches.

It holds along runs in which nothing writes into a match or a record that does not exist
(`PathsComplete`).
-/

namespace TifaSoccer

open Async Run

/-! ## Records -/

/-- The record a request writes fields of. -/
def Request.amends : Request → Option String
  | .base (.loadProfileImageWrite uid _) => some uid
  | .updateProfile (.updatePlayerData uid _ _) => some uid
  | _ => none

/-- A picture or the fields of a profile are written only into a record that exists. -/
def AmendsExisting (w : World) (fl : Flight) (o : Outcome) : Prop :=
  ∀ uid ∈ fl.request.amends, o.error = none → (userNode w.server.database uid).isNull = false

instance (w : World) (fl : Flight) (o : Outcome) : Decidable (AmendsExisting w fl o) :=
  inferInstanceAs (Decidable (∀ uid ∈ fl.request.amends, _))

/-- Every record carries its own key as `uuid`. -/
def RecordsWhole (db : Value) : Prop :=
  ∀ uid, userNode db uid ≠ .null → uid ≠ "" ∧ (userNode db uid).field "uuid" = some uid

/-- A server step keeps the records whole. -/
theorem recordsWhole_serve {w : World} {fl : Flight} {o : Outcome}
    (h : RecordsWhole w.server.database) (hcond : AmendsExisting w fl o) :
    RecordsWhole (fl.request.serve w.server o).1.database := by
  intro uid huid
  rcases userNode_serve w.server fl.request o uid with hsame | ⟨ws, ho, hw, hne, hnode⟩
  · rw [hsame] at huid ⊢
    exact h uid huid
  · refine ⟨hne, ?_⟩
    have hexists : fl.request.amends = some uid → userNode w.server.database uid ≠ .null := by
      intro hamends hnull
      have := hcond uid hamends ho
      rw [Json.isNull_iff.mpr hnull] at this
      cases this
    rw [hnode]
    generalize hr : fl.request = r at hw hexists
    -- a registration writes the whole record, the other two leave its `uuid` alone
    cases hw with
    | register email nameSurname =>
      simp [Value.field, Json.object, BaseViewModel.registerParams, Json.leaf, Node.asString]
    | picture url => simpa [Value.field] using (h uid (hexists rfl)).2
    | profile nameSurname position => simpa [Value.field] using (h uid (hexists rfl)).2

/-! ## The condition -/

def Op.comments : Op → Bool
  | .addComment _ _ _ _ => true
  | _ => false

/-- Calls are made by the screens, and a comment is sent only after a match has been stored. -/
def CalledByScreens (w : World) (i : ℕ) (op : Op) : Prop :=
  (w.clients i).Supplies op ∧
    (op.comments = true → (w.clients i).matchs.selectedMatch ≠ MatchsModel.init .byKey [])

instance (w : World) (i : ℕ) (op : Op) : Decidable (CalledByScreens w i op) :=
  inferInstanceAs (Decidable (_ ∧ _))

def PathsComplete (w : World) (l : Label) : Prop :=
  OnCall CalledByScreens w l ∧ OnServe FillsExisting w l ∧ OnServe AmendsExisting w l

instance (w : World) (l : Label) : Decidable (PathsComplete w l) :=
  inferInstanceAs (Decidable (_ ∧ _ ∧ _))

/-! ## The server -/

structure ServerSound (s : Firebase) : Prop where
  documents : DocumentsWhole s.database
  records : RecordsWhole s.database
  named : ∀ m, SlotsNamed s.database m
  slots : ∀ m k, slot s.database m k ≠ .null → k ≠ ""
  accounts : ∀ a ∈ s.accounts, a.uid ≠ ""

/-- From an empty database and accounts with uids, the server stays sound. -/
theorem serverSound_of_reaches {server : Firebase} {sessions : ℕ → Option String} {w : World}
    (hempty : server.database = .null) (haccounts : ∀ a ∈ server.accounts, a.uid ≠ "")
    (hrun : Reaches App.step PathsComplete (World.start server sessions) w) :
    ServerSound w.server := by
  have hslot : ∀ m k, slot server.database m k = .null := fun m k => by rw [hempty]; rfl
  -- in the empty database each part holds of nothing
  refine server_invariant (P := App.service) (I := ServerSound) hrun ⟨?_, ?_, ?_, ?_, ?_⟩ ?_
  · exact documentsWhole_empty (by rw [show (World.start server sessions).server = server from rfl,
      hempty, Json.child_null])
  · intro uid huid
    exact absurd (show userNode server.database uid = .null by rw [hempty]; rfl) huid
  · exact fun m k hk => absurd (hslot m k) hk
  · exact fun m k hk => absurd (hslot m k) hk
  · exact haccounts
  · intro w n fl o hreach hI hget hC
    refine ⟨documentsWhole_serve hI.documents (hC.2.1 fl hget),
      recordsWhole_serve hI.records (hC.2.2 fl hget),
      fun m => slotsNamed_serve (hI.named m) fl.request o, fun m k hk => ?_, fun a ha => ?_⟩
    · -- a slot is filled by an assignment, which was sent with its name
      rcases slot_serve w.server fl.request o m k with h | ⟨player, hr, -, -⟩ | ⟨-, -, h⟩
      · exact hI.slots m k fun hnull => hk (h.trans hnull)
      · obtain ⟨q, hq⟩ := sent_of_reaches hreach fl (List.mem_of_getElem? hget)
        rw [hr] at hq
        obtain ⟨-, hpath, -⟩ := (MatchWrite.assign k player).remote_eq_ok.mp hq
        intro hk'
        exact hpath (by simp [hk'])
      · exact absurd h hk
    · rcases accounts_serve w.server fl.request o with hsame | ⟨_, _, _, uid, -, huid, -, hadded⟩
      · exact hI.accounts a (hsame ▸ ha)
      · -- the uid of a new account is not empty
        have ha : a ∈ (fl.request.serve w.server o).1.accounts := ha
        rw [hadded, List.mem_append, List.mem_singleton] at ha
        rcases ha with ha | rfl
        · exact hI.accounts a ha
        · exact huid

/-! ## The answers in flight -/

/-- What an answer brings carries the keys the app will use. -/
structure AnswerSound (r : Request) (a : Answer) : Prop where
  list : r = .matchs .getAllMatchs → ∀ k d, Value.asDictionary (a.value.child k) = some d →
    d.string "matchID" ≠ ""
  selected : ∀ m ∈ r.selects, ∀ d ∈ a.value.asDictionary, d.string "matchID" ≠ ""
  user : ∀ uid ∈ r.fetchesUser, ∀ d ∈ a.value.asDictionary, d.string "uuid" ≠ ""
  position : ∀ m u, r = .matchs (.isUserInFootballArea m u) → ∀ order p,
    MatchsViewModel.positionOfUser order u a.value = some p → p.positionForMatch.getD "" ≠ ""
  signedIn : r.signsIn = true → ∀ uid ∈ a.uid, uid ≠ ""

/-- The document of a match names it. -/
theorem matchID_ne_empty {s : Firebase} (h : ServerSound s) {m : String} {d : Dictionary}
    (hd : (matchNode s.database m).asDictionary = some d) : d.string "matchID" ≠ "" := by
  have hne : matchNode s.database m ≠ .null := by
    intro hnull
    rw [hnull] at hd
    cases hd
  obtain ⟨hm, hfield⟩ := h.documents m hne
  rw [string_of_asDictionary hd, hfield]
  exact hm

/-- The accounts Auth signs in have uids. -/
theorem signedIn_serve {s : Firebase} (h : ServerSound s) {r : Request} (hr : r.signsIn = true)
    (o : Outcome) {uid : String} (huid : (r.serve s o).2.uid = some uid) : uid ≠ "" := by
  have hremote : ∀ q, r.remote = .ok q →
      (∃ email password, q = .signIn email password) ∨
        ∃ email password, q = .createUser email password := by
    intro q hq
    unfold Request.signsIn at hr
    split at hr
    · cases hq
      exact .inl ⟨_, _, rfl⟩
    · cases hq
      exact .inr ⟨_, _, rfl⟩
    · cases hr
  unfold Request.serve at huid
  split at huid
  · rename_i q hq
    unfold Firebase.serve at huid
    split at huid
    · cases huid
    · cases huid
    · rename_i hrefusal
      rcases hremote q hq with ⟨email, password, rfl⟩ | ⟨email, password, rfl⟩
      · -- the uid of the account that was found
        simp only [Remote.answer] at huid
        split at huid
        · rename_i a hfind
          cases huid
          exact h.accounts a (List.mem_of_find?_eq_some hfind)
        · cases huid
      · -- the uid of the new account
        simp only [Remote.refusal] at hrefusal
        split_ifs at hrefusal with hbad
        cases huid
        exact fun hempty => hbad (.inl hempty)
  · cases huid

/-- A sound server answers soundly. -/
theorem answerSound_serve {s : Firebase} (h : ServerSound s) (r : Request) (o : Outcome) :
    AnswerSound r (r.serve s o).2 where
  list := by
    intro hr k d hd
    have hread : ∀ q, r.remote = .ok q → q = .getData ["Matchs"] := by
      intro q hq
      rw [hr] at hq
      cases hq
      rfl
    rcases answer_of_getData hread s o with ha | ⟨⟨e, ha⟩, -⟩
    · rw [ha] at hd
      exact matchID_ne_empty h hd
    · rw [ha] at hd
      cases hd
  selected := by
    intro m hm d hd
    rw [selects_eq_some.mp hm] at hd
    rcases MatchRead.detail.answer s o with ha | ⟨⟨e, ha⟩, -⟩
    · rw [ha] at hd
      exact matchID_ne_empty h hd
    · rw [ha] at hd
      cases hd
  user := by
    intro uid huid d hd
    have hread : ∀ q, r.remote = .ok q → q = .getData ["Users", uid] := by
      intro q hq
      rw [fetchesUser_eq_some.mp huid] at hq
      simp [Request.remote, BaseViewModel.Request.remote, getReference] at hq
      exact hq.2.symm
    rcases answer_of_getData hread s o with ha | ⟨⟨e, ha⟩, -⟩
    · rw [ha] at hd
      have hd : (userNode s.database uid).asDictionary = some d := hd
      have hne : userNode s.database uid ≠ .null := by
        intro hnull
        rw [hnull] at hd
        cases hd
      obtain ⟨hne', hfield⟩ := h.records uid hne
      rw [string_of_asDictionary hd, hfield]
      exact hne'
    · rw [ha] at hd
      cases hd
  position := by
    intro m u hr order p hp
    rw [hr] at hp
    rcases (MatchRead.area u).answer s o with ha | ⟨⟨e, ha⟩, -⟩
    · rw [ha] at hp
      obtain ⟨d, hd, p', hp', -, hpos⟩ := placesAt_of_positionOfUser hp
      obtain ⟨k, hk, hne, -⟩ := slot_of_mem_Position (h.named m) hd hp'
      rw [← hpos, hk]
      exact h.slots m k hne
    · rw [ha] at hp
      cases hp
  signedIn := fun hr uid huid => signedIn_serve h hr o huid

/-- All answers of a run are sound. -/
theorem answerSound_of_reaches {server : Firebase} {sessions : ℕ → Option String} {w : World}
    (hempty : server.database = .null) (haccounts : ∀ a ∈ server.accounts, a.uid ≠ "")
    (hrun : Reaches App.step PathsComplete (World.start server sessions) w) :
    ∀ fl ∈ w.flights, ∀ a ∈ fl.answer, AnswerSound fl.request a := by
  refine flight_invariant (P := App.service)
    (J := fun fl => ∀ a ∈ fl.answer, AnswerSound fl.request a) hrun rfl ?_ ?_ ?_
  · intro w i op c rs r _ _ _ _ a ha
    cases ha
  · intro w n o fl hreach _ _ _ _ a ha
    have ha : some (fl.request.serve w.server o).2 = some a := ha
    rw [← Option.some.inj ha]
    exact answerSound_serve (serverSound_of_reaches hempty haccounts hreach) fl.request o
  · intro w n d fl a c rs r _ _ _ _ _ _ _ a ha
    cases ha

/-! ## The clients -/

/-- What a client has cached carries the keys it will use. -/
structure ClientSound (c : Client) : Prop where
  list : ∀ match' ∈ c.matchs.matchsModelList, ∃ m, m ≠ "" ∧ match'.matchID = some m
  selected : c.matchs.selectedMatch = MatchsModel.init .byKey [] ∨
    ∃ m, m ≠ "" ∧ c.matchs.selectedMatch.matchID = some m
  user : ∀ u ∈ c.base.userModel, ∃ uid, uid ≠ "" ∧ u.uuid = some uid
  current : ∀ uid ∈ c.currentUser, uid ≠ ""
  detail : ∀ m ∈ c.detail, m ≠ ""

/-- A screen is opened from the list. -/
theorem detail_ne_empty {c : Client} (h : ClientSound c) {op : Op} (hsupplies : c.Supplies op)
    {m : String} (hm : op.detail c.detail = some m) : m ≠ "" := by
  cases op with
  | openDetail m' =>
    obtain ⟨match', hmatch, hid⟩ := hsupplies
    obtain ⟨id, hne, hid'⟩ := h.list match' hmatch
    rw [hid', Option.getD_some] at hid
    cases hm
    exact hid ▸ hne
  | closeDetail => cases hm
  | _ => exact h.detail m hm

/-- A call keeps a client sound. -/
theorem clientSound_of_call {c c' : Client} {op : Op} (h : ClientSound c)
    (hsupplies : c.Supplies op) (hfrom : CalledFrom c op c') : ClientSound c' where
  list := by
    intro match' hmatch
    rcases hfrom.matchsModelList with hlist | hlist
    · exact h.list match' (hlist ▸ hmatch)
    · rw [hlist] at hmatch
      cases hmatch
  selected := by
    rw [hfrom.selectedMatch]
    exact h.selected
  user := by
    intro u hu
    rcases hfrom.userModel with huser | huser
    · exact h.user u (huser ▸ hu)
    · rw [huser] at hu
      cases hu
  current := by
    intro uid huid
    rcases hfrom.currentUser with hcurrent | ⟨hcurrent, -⟩
    · exact h.current uid (hcurrent ▸ huid)
    · rw [hcurrent] at huid
      cases huid
  detail := fun m hm => detail_ne_empty h hsupplies (hfrom.detail ▸ hm)

/-- A sound answer keeps a client sound. -/
theorem clientSound_of_complete {c c' : Client} {orders : ℕ → DictOrder} {r : Request} {a : Answer}
    (h : ClientSound c) (hanswer : AnswerSound r a) (hfrom : CompletedFrom c orders r a c') :
    ClientSound c' where
  list := by
    intro match' hmatch
    rcases hfrom.matchsModelList match' hmatch with hold | ⟨hr, order, k, d, hd, rfl⟩
    · exact h.list match' hold
    · exact ⟨_, hanswer.list hr k d hd, rfl⟩
  selected := by
    rcases hfrom.selection with ⟨hselected, -, -⟩ | ⟨m, d, hr, hd, hselected, -⟩
    · rw [hselected]
      exact h.selected
    · rw [hselected]
      exact .inr ⟨_, hanswer.selected m (selects_eq_some.mpr hr) d hd, rfl⟩
  user := by
    intro u hu
    rcases hfrom.userModel with ⟨uid, hr, huser⟩ | ⟨-, hprofile⟩
    · rw [huser] at hu
      obtain ⟨d, hd, rfl⟩ := Option.map_eq_some_iff.mp hu
      exact ⟨_, hanswer.user uid hr d hd, rfl⟩
    · obtain ⟨u₀, hu₀, huuid, -⟩ := hprofile u hu
      rw [huuid]
      exact h.user u₀ hu₀
  current := by
    intro uid huid
    rcases hfrom.currentUser with hcurrent | ⟨hsigns, uid', rfl, hcurrent⟩
    · exact h.current uid (hcurrent ▸ huid)
    · rw [hcurrent] at huid
      cases huid
      exact hanswer.signedIn hsigns uid rfl
  detail := fun m hm => h.detail m (hfrom.detail ▸ hm)

/-- All clients of a run are sound. -/
theorem clientSound_of_reaches {server : Firebase} {sessions : ℕ → Option String} {w : World}
    (hempty : server.database = .null) (haccounts : ∀ a ∈ server.accounts, a.uid ≠ "")
    (hsessions : ∀ i, ∀ uid ∈ sessions i, uid ≠ "")
    (hrun : Reaches App.step PathsComplete (World.start server sessions) w) :
    ∀ i, ClientSound (w.clients i) := by
  refine (client_invariant (P := App.service) (Q := ClientSound) hrun ?_ rfl ?_ ?_).1
  · intro i
    refine ⟨?_, .inl rfl, ?_, hsessions i, ?_⟩ <;> intro _ h <;> cases h
  · intro w i op c rs _ hQ hC hcall
    exact clientSound_of_call hQ hC.1.1 (calledFrom_of_call (toOption_eq_some.mp hcall))
  · intro w n d fl a c rs hreach hQ _ hget ha hcomplete
    have hanswer := answerSound_of_reaches hempty haccounts hreach fl
      (List.mem_of_getElem? hget) a ha
    exact clientSound_of_complete hQ hanswer
      (completedFrom_of_complete (toOption_eq_some.mp hcomplete))

/-! ## The requests in flight -/

/-- The uids that later requests of a chain will use are not empty. -/
structure RequestSound (r : Request) : Prop where
  joining : ∀ m u user, r = .matchs (.joinMatchesRead m u user) → u ≠ ""
  uploading : ∀ uid, r = .base (.loadProfileImagePut uid) ∨ r = .base (.loadProfileImageURL uid) →
    uid ≠ ""

/-- A sound client sends sound requests. -/
theorem requestSound_of_call {c : Client} {op : Op} {r : Request} (h : ClientSound c)
    (hsupplies : c.Supplies op) (hissues : CallIssues c op r) : RequestSound r where
  joining := by
    rintro m u user rfl
    cases hissues with
    | joinMatches _ _ hu =>
      obtain ⟨uid, hne, huid⟩ := h.user user hsupplies.1
      rw [hu] at huid
      cases huid
      exact hne
  uploading := by
    rintro uid (rfl | rfl)
    · cases hissues with
      | loadProfileImage huid => exact h.current uid huid
    · cases hissues

/-- The next request of a chain is sound too. -/
theorem requestSound_of_complete {order : DictOrder} {r r' : Request} {a : Answer}
    (h : RequestSound r) (hissues : CompletionIssues order r a r') : RequestSound r' where
  joining := by
    rintro m u user rfl
    cases hissues
  uploading := by
    rintro uid (rfl | rfl)
    · cases hissues
    · cases hissues
      exact h.uploading uid (.inl rfl)

/-- All requests of a run are sound. -/
theorem requestSound_of_reaches {server : Firebase} {sessions : ℕ → Option String} {w : World}
    (hempty : server.database = .null) (haccounts : ∀ a ∈ server.accounts, a.uid ≠ "")
    (hsessions : ∀ i, ∀ uid ∈ sessions i, uid ≠ "")
    (hrun : Reaches App.step PathsComplete (World.start server sessions) w) :
    ∀ fl ∈ w.flights, RequestSound fl.request := by
  refine flight_invariant (P := App.service) (J := fun fl => RequestSound fl.request) hrun rfl
    ?_ ?_ ?_
  · intro w i op c rs r hreach hC hcall hr
    exact requestSound_of_call (clientSound_of_reaches hempty haccounts hsessions hreach i) hC.1.1
      (issues_of_call (toOption_eq_some.mp hcall) hr).1
  · intro w n o fl _ _ _ _ hJ
    exact hJ
  · intro w n d fl a c rs r _ _ _ hJ _ hcomplete hr
    exact requestSound_of_complete hJ (issues_of_complete (toOption_eq_some.mp hcomplete) hr).1

end TifaSoccer

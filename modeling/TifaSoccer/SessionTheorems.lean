import TifaSoccer.CacheTheorems

/-!
# The cached profile and the session

`getCurrentUserData` captures the uid when it starts and stores the record when its answer
comes; nothing compares the two moments. The cached profile belongs to the session
(`profile_in_session`), and the role tests of the views speak of the account that is signed in
(`admin_writes_in_session`), along runs in which the session has not changed in between.
-/

namespace TifaSoccer

open Async Run

/-! ## Answers -/

/-- The request behind a fetch of a profile. -/
theorem fetchesUser_eq_some {r : Request} {uid : String} :
    r.fetchesUser = some uid ↔ r = .base (.getCurrentUserData uid) := by
  unfold Request.fetchesUser
  split
  · simp
  · rename_i hne
    simp only [reduceCtorEq, false_iff]
    exact hne uid

/-- A request that fetches a record signs nobody in. -/
theorem signsIn_of_fetchesUser {r : Request} {uid : String} (h : r.fetchesUser = some uid) :
    r.signsIn = false := by
  rw [fetchesUser_eq_some.mp h]
  rfl

/-! ## The profile of the session -/

/-- A fetched record is stored only while the account it was fetched for is signed in, and it
names this account; a sign-in ends only when no profile is cached or the same account is
already signed in. -/
def ProfileInSession (w : World) (fl : Flight) : Prop :=
  ∀ a ∈ fl.answer,
    (∀ uid ∈ fl.request.fetchesUser, a.value.asDictionary.isSome = true →
      (w.clients fl.owner).currentUser = some uid ∧ a.value.field "uuid" = some uid) ∧
    (fl.request.signsIn = true → ∀ uid ∈ a.uid,
      (w.clients fl.owner).base.userModel.isNone = true ∨
        (w.clients fl.owner).currentUser = some uid)

instance (w : World) (fl : Flight) : Decidable (ProfileInSession w fl) :=
  inferInstanceAs (Decidable (∀ a ∈ fl.answer, _))

/-- The cached profile is that of the account Auth reports. -/
def OwnProfile (c : Client) : Prop :=
  ∀ u ∈ c.base.userModel, ∃ uid, c.currentUser = some uid ∧ u.uuid = some uid

/-- A call keeps the profile one of the session. -/
theorem ownProfile_of_call {c c' : Client} {op : Op} (h : OwnProfile c)
    (hfrom : CalledFrom c op c') : OwnProfile c' := by
  intro u hu
  rcases hfrom.userModel with huser | huser
  · rcases hfrom.currentUser with hcurrent | ⟨-, hnone⟩
    · rw [huser] at hu
      rw [hcurrent]
      exact h u hu
    · rw [hnone] at hu
      cases hu
  · rw [huser] at hu
    cases hu

/-- A completion keeps it so when the session is still the one of its request. -/
theorem ownProfile_of_complete {c c' : Client} {orders : ℕ → DictOrder} {r : Request} {a : Answer}
    (h : OwnProfile c) (hfrom : CompletedFrom c orders r a c')
    (hfetch : ∀ uid ∈ r.fetchesUser, a.value.asDictionary.isSome = true →
      c.currentUser = some uid ∧ a.value.field "uuid" = some uid)
    (hsign : r.signsIn = true → ∀ uid ∈ a.uid,
      c.base.userModel.isNone = true ∨ c.currentUser = some uid) : OwnProfile c' := by
  intro u' hu'
  rcases hfrom.userModel with ⟨uid, hr, huser⟩ | ⟨-, huser⟩
  · -- a record has been fetched
    rw [huser] at hu'
    obtain ⟨d, hd, rfl⟩ := Option.map_eq_some_iff.mp hu'
    obtain ⟨hcurrent, huuid⟩ := hfetch uid hr (by rw [hd]; rfl)
    refine ⟨uid, ?_, ?_⟩
    · rcases hfrom.currentUser with hsame | ⟨hsigns, -⟩
      · rw [hsame, hcurrent]
      · rw [signsIn_of_fetchesUser hr] at hsigns
        cases hsigns
    · show some (d.string "uuid") = some uid
      rw [string_of_asDictionary hd, huuid, Option.getD_some]
  · -- the profile was cached before
    obtain ⟨u, hu, huuid, -⟩ := huser u' hu'
    rw [huuid]
    rcases hfrom.currentUser with hsame | ⟨hsigns, uid, rfl, hcurrent⟩
    · rw [hsame]
      exact h u hu
    · -- somebody has signed in while a profile was cached
      rcases hsign hsigns uid rfl with hnone | hcurrent'
      · rw [Option.isNone_iff_eq_none] at hnone
        rw [hnone] at hu
        cases hu
      · rw [hcurrent, ← hcurrent']
        exact h u hu

/-- Along every run in which records are stored and sign-ins end only in the session they belong
to, the cached profile of every client is empty or that of the account Auth reports. -/
theorem profile_in_session {server : Firebase} {sessions : ℕ → Option String} {w : World}
    (hrun : Reaches App.step (OnDeliver ProfileInSession) (World.start server sessions) w) (i : ℕ) :
    ∀ u ∈ (w.clients i).base.userModel,
      ∃ uid, (w.clients i).currentUser = some uid ∧ u.uuid = some uid := by
  revert i
  refine (client_invariant (P := App.service) (Q := OwnProfile) hrun ?_ rfl ?_ ?_).1
  · intro i u hu
    cases hu
  · intro w i op c rs _ hQ _ hcall
    exact ownProfile_of_call hQ (calledFrom_of_call (toOption_eq_some.mp hcall))
  · intro w n d fl a c rs _ hQ hcond hget ha hcomplete
    obtain ⟨hfetch, hsign⟩ := hcond fl hget a ha
    exact ownProfile_of_complete hQ (completedFrom_of_complete (toOption_eq_some.mp hcomplete))
      hfetch hsign

/-- An admin `a` with a record, a second account `b` and a match. -/
def adminAndUser : Firebase where
  database := ((sampleMatch []).database.set ["Users", "a"]
    (.object (BaseViewModel.registerParams "a" "a@mail.com" "a"))).set ["Users", "a", "authority"]
      (.leaf (.str "admin"))
  accounts := [⟨"a", "a@mail.com", "secret"⟩, ⟨"b", "b@mail.com", "secret"⟩]

/-- `a` fetches the matches and his profile. -/
def profileFetched : List Label :=
  [.call 0 .getAllMatchs] ++ roundTrip 0 {} ++ [.call 0 .getCurrentUserData] ++ roundTrip 0 {}

/-- The profile of the user after a sign-in. -/
theorem profile_in_session_after_fetch :
    ∃ w, exec (restrict App.step (OnDeliver ProfileInSession))
        (World.start adminAndUser fun _ => some "a") profileFetched = some w ∧
      ∀ u ∈ (w.clients 0).base.userModel,
        ∃ uid, (w.clients 0).currentUser = some uid ∧ u.uuid = some uid := by
  obtain ⟨w, hw⟩ := Option.isSome_iff_exists.mp (show (exec (restrict App.step
    (OnDeliver ProfileInSession)) (World.start adminAndUser fun _ => some "a")
    profileFetched).isSome from by decide +kernel)
  exact ⟨w, hw, profile_in_session (reaches_of_exec hw) 0⟩

/-- `a` asks for his profile and signs out, `b` signs in, and then the answer comes. -/
def lateProfile : List Label :=
  [.call 0 .getCurrentUserData, .serve 0 {}, .call 0 (.signOut false),
    .call 0 (.login "b@mail.com" "secret")] ++ roundTrip 1 {} ++ [.deliver 0 fun _ => .byKey]

/-- `b` is signed in with the profile of `a`. -/
theorem late_profile_of_another :
    ∃ w u, exec (restrict App.step (OnCall fun w i op => (w.clients i).Offers op))
        (World.start adminAndUser fun _ => some "a") lateProfile = some w ∧
      (w.clients 0).currentUser = some "b" ∧ (w.clients 0).base.userModel = some u ∧
      u.uuid = some "a" := by
  obtain ⟨w, hw, hend⟩ := Option.map_eq_some_iff.mp (show (exec (restrict App.step
    (OnCall fun w i op => (w.clients i).Offers op)) (World.start adminAndUser fun _ => some "a")
    lateProfile).map (fun w => ((w.clients 0).currentUser,
      (w.clients 0).base.userModel.map UserModel.uuid)) = some (some "b", some (some "a"))
    from by decide +kernel)
  simp only [Prod.mk.injEq, Option.map_eq_some_iff] at hend
  obtain ⟨hcurrent, u, hu, huuid⟩ := hend
  exact ⟨w, u, hw, hcurrent, hu, huuid⟩

/-! ## The role of the session -/

/-- The record the completion of a request stores: the account it was fetched for and its
authority. -/
def fetchedBy (fl : Flight) : Option (String × String) := do
  let uid ← fl.request.fetchesUser
  let a ← fl.answer
  let d ← a.value.asDictionary
  return (uid, d.string "authority")

/-- For each client and account the authority in the last record the client has fetched. -/
def lastFetched : (ℕ → String → Option String) → World → Label → ℕ → String → Option String :=
  delivered fun fl last =>
    match fetchedBy fl with
    | some (uid, authority) => Function.update last uid (some authority)
    | none => last

/-- The record of an admin is stored only while that admin is signed in; a sign-in ends only
when no admin's profile is cached or the same account is already signed in. -/
def AdminInSession (w : World) (fl : Flight) : Prop :=
  ∀ a ∈ fl.answer,
    (∀ uid ∈ fl.request.fetchesUser, ∀ d ∈ a.value.asDictionary,
      d.string "authority" = "admin" → (w.clients fl.owner).currentUser = some uid) ∧
    (fl.request.signsIn = true → ∀ uid ∈ a.uid,
      (w.clients fl.owner).isAdmin = false ∨ (w.clients fl.owner).currentUser = some uid)

instance (w : World) (fl : Flight) : Decidable (AdminInSession w fl) :=
  inferInstanceAs (Decidable (∀ a ∈ fl.answer, _))

/-- The screens take the cached profile for the authority. -/
theorem isAdmin_iff {c : Client} :
    c.isAdmin = true ↔ ∃ u ∈ c.base.userModel, u.authority = some "admin" := by
  rw [Client.isAdmin, decide_eq_true_eq, Option.bind_eq_some_iff]
  rfl

/-- When the profile of the client passes the role test, the account signed in was last fetched
as an admin. -/
def AdminKnown (c : Client) (last : String → Option String) : Prop :=
  c.isAdmin = true → ∃ uid, c.currentUser = some uid ∧ last uid = some "admin"

/-- A call invents no admin. -/
theorem adminKnown_of_call {c c' : Client} {op : Op} {last : String → Option String}
    (h : AdminKnown c last) (hfrom : CalledFrom c op c') : AdminKnown c' last := by
  intro hadmin
  obtain ⟨u, hu, hauthority⟩ := isAdmin_iff.mp hadmin
  rcases hfrom.userModel with huser | huser
  · rcases hfrom.currentUser with hcurrent | ⟨-, hnone⟩
    · rw [hcurrent]
      exact h (isAdmin_iff.mpr ⟨u, huser ▸ hu, hauthority⟩)
    · rw [hnone] at hu
      cases hu
  · rw [huser] at hu
    cases hu

/-- A completion that fetches no record keeps the role of the session. -/
theorem adminKnown_of_complete {c c' : Client} {orders : ℕ → DictOrder} {r : Request} {a : Answer}
    {last : String → Option String} (h : AdminKnown c last)
    (hfrom : CompletedFrom c orders r a c')
    (hprofile : SameProfile c.base.userModel c'.base.userModel)
    (hsign : r.signsIn = true → ∀ uid ∈ a.uid, c.isAdmin = false ∨ c.currentUser = some uid) :
    AdminKnown c' last := by
  intro hadmin
  obtain ⟨u', hu', hauthority'⟩ := isAdmin_iff.mp hadmin
  obtain ⟨u, hu, -, hauthority⟩ := hprofile u' hu'
  have hadmin₀ : c.isAdmin = true := isAdmin_iff.mpr ⟨u, hu, hauthority ▸ hauthority'⟩
  rcases hfrom.currentUser with hsame | ⟨hsigns, uid, rfl, hcurrent⟩
  · rw [hsame]
    exact h hadmin₀
  · -- a sign-in has ended while an admin's profile was cached
    rcases hsign hsigns uid rfl with hnot | hcurrent'
    · rw [hadmin₀] at hnot
      cases hnot
    · rw [hcurrent, ← hcurrent']
      exact h hadmin₀

/-- Along every run in which admins' records are stored and sign-ins end only in the session they
belong to, the role tests of the views speak of the account that is signed in. -/
theorem adminKnown_of_reaches {server : Firebase} {sessions : ℕ → Option String}
    {s : World × (ℕ → String → Option String)}
    (hrun : Reaches (record App.step lastFetched) (fun s l => OnDeliver AdminInSession s.1 l)
      (World.start server sessions, fun _ _ => none) s) (i : ℕ) :
    AdminKnown (s.1.clients i) (s.2 i) := by
  revert i
  refine delivered_invariant (P := App.service) (Q := AdminKnown) hrun
    (fun i hadmin => by cases hadmin) ?_ ?_
  · intro s i op c rs hQ _ hcall
    exact adminKnown_of_call hQ (calledFrom_of_call (toOption_eq_some.mp hcall))
  · intro s n d fl a c rs _ hQ hC hget ha hcomplete
    have hfrom := completedFrom_of_complete (toOption_eq_some.mp hcomplete)
    obtain ⟨hfetch, hsign⟩ := hC fl hget a ha
    rcases hfrom.userModel with ⟨uid, hr, huser⟩ | ⟨hr, hprofile⟩
    · -- the record just stored is the last one fetched for its account
      intro hadmin
      obtain ⟨u, hu, hauthority⟩ := isAdmin_iff.mp hadmin
      rw [huser] at hu
      obtain ⟨dict, hdict, rfl⟩ := Option.map_eq_some_iff.mp hu
      have hrole : dict.string "authority" = "admin" := Option.some.inj hauthority
      have hfetched : fetchedBy fl = some (uid, "admin") := by
        simp [fetchedBy, hr, ha, hdict, hrole]
      refine ⟨uid, ?_, ?_⟩
      · rcases hfrom.currentUser with hsame | ⟨hsigns, -⟩
        · rw [hsame]
          exact hfetch uid hr dict hdict hrole
        · rw [signsIn_of_fetchesUser hr] at hsigns
          cases hsigns
      · simp [hfetched]
    · have hfetched : fetchedBy fl = none := by simp [fetchedBy, hr]
      rw [hfetched]
      exact adminKnown_of_complete hQ hfrom hprofile hsign

/-- In such a run, whenever a screen offers a deletion, an assignment, its removal or a planning
toggle, an account is signed in and the last record fetched for it says `admin`. -/
theorem admin_writes_in_session {server : Firebase} {sessions : ℕ → Option String}
    {s : World × (ℕ → String → Option String)}
    (hrun : Reaches (record App.step lastFetched) (fun s l => OnDeliver AdminInSession s.1 l)
      (World.start server sessions, fun _ _ => none) s)
    {i : ℕ} {op : Op} (hoffers : (s.1.clients i).Offers op) (hop : op.adminOnly = true) :
    ∃ uid, (s.1.clients i).currentUser = some uid ∧ s.2 i uid = some "admin" :=
  adminKnown_of_reaches hrun i (hoffers.2 hop)

/-- An admin whose record has been fetched. -/
theorem admin_writes_in_session_after_fetch :
    ∃ s, exec (restrict (record App.step lastFetched)
        (fun s l => OnDeliver AdminInSession s.1 l))
        (World.start adminAndUser fun _ => some "a", fun _ _ => none) profileFetched = some s ∧
      (s.1.clients 0).Offers (.deleteMatches "m") ∧
      ∃ uid, (s.1.clients 0).currentUser = some uid ∧ s.2 0 uid = some "admin" := by
  obtain ⟨s, hs, hend⟩ := Option.map_eq_some_iff.mp (show (exec (restrict (record App.step
    lastFetched) (fun s l => OnDeliver AdminInSession s.1 l))
    (World.start adminAndUser fun _ => some "a", fun _ _ => none) profileFetched).map
    (fun s => decide ((s.1.clients 0).Offers (.deleteMatches "m"))) = some true
    from by decide +kernel)
  have hoffers := of_decide_eq_true hend
  exact ⟨s, hs, hoffers, admin_writes_in_session (reaches_of_exec hs) hoffers rfl⟩

/-- `a` asks for his profile and signs out before the answer comes. -/
def profileAfterSignOut : List Label :=
  [.call 0 .getAllMatchs] ++ roundTrip 0 {} ++
    [.call 0 .getCurrentUserData, .serve 0 {}, .call 0 (.signOut false), .deliver 0 fun _ => .byKey]

/-- Nobody is signed in, and the delete button is offered. -/
theorem delete_offered_signed_out :
    ∃ w, exec (restrict App.step (OnCall fun w i op => (w.clients i).Offers op))
        (World.start adminAndUser fun _ => some "a") profileAfterSignOut = some w ∧
      (w.clients 0).Offers (.deleteMatches "m") ∧ (w.clients 0).currentUser = none := by
  obtain ⟨w, hw, hend⟩ := Option.map_eq_some_iff.mp (show (exec (restrict App.step
    (OnCall fun w i op => (w.clients i).Offers op)) (World.start adminAndUser fun _ => some "a")
    profileAfterSignOut).map (fun w => (decide ((w.clients 0).Offers (.deleteMatches "m")),
      (w.clients 0).currentUser)) = some (true, none) from by decide +kernel)
  obtain ⟨hoffers, hcurrent⟩ := Prod.mk.inj hend
  exact ⟨w, hw, of_decide_eq_true hoffers, hcurrent⟩

end TifaSoccer

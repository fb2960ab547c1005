import TifaSoccer.LoadingTheorems

/-!
# Accounts and sessions

`register` creates the account in one request and writes its record in a second one; nothing
takes the account back when the second request fails. The same failure leaves the user signed in
to Auth with `isLoggedIn` cleared. Between the two, Auth has dispatched a callback, and the user may
sign out before it runs. Accounts have whole records (`registration_all_or_nothing`) along runs in
which no record fails to be written and new users stay signed in until their callback has run; the
flag agrees with Auth (`session_flag_agrees`) along runs in which nobody signs out before a callback
and no sign-in or registration fails while somebody is signed in.
-/

namespace TifaSoccer

open Async Run

/-! ## Answers of Auth -/

/-- A sign-in or a creation that succeeds answers with the user. -/
theorem answer_of_signsIn {r : Request} (hr : r.signsIn = true) (s : Firebase) (o : Outcome)
    (ha : (r.serve s o).2.succeeded = true) : ∃ uid, (r.serve s o).2 = .user uid := by
  unfold Request.signsIn at hr
  split at hr
  · rename_i email password
    have hserve : (Request.base (.login email password)).serve s o =
        s.serve (.signIn email password) o := rfl
    rw [hserve] at ha ⊢
    unfold Firebase.serve at ha ⊢
    split at ha
    · cases ha
    · cases ha
    · rename_i hrefusal
      -- Auth has not refused, so there is an account for the credentials
      have hany : (s.accounts.find? fun a => a.email = email ∧ a.password = password).isSome := by
        rw [List.find?_isSome]
        by_contra hnone
        simp [Remote.refusal] at hrefusal
        obtain ⟨a, ha, h⟩ := hrefusal
        exact hnone ⟨a, ha, by simpa using h⟩
      obtain ⟨a, ha⟩ := Option.isSome_iff_exists.mp hany
      exact ⟨a.uid, by simp only [Remote.answer, ha]⟩
  · rename_i email password nameSurname
    have hserve : (Request.base (.registerCreate email password nameSurname)).serve s o =
        s.serve (.createUser email password) o := rfl
    rw [hserve] at ha ⊢
    unfold Firebase.serve at ha ⊢
    split at ha
    · cases ha
    · cases ha
    · exact ⟨o.uid, rfl⟩
  · cases hr

/-- The answer of Auth to a sign-in or a creation in flight is an error or the user. -/
theorem signsIn_answered {C : World → Label → Prop} {server : Firebase}
    {sessions : ℕ → Option String} {w : World}
    (hrun : Reaches App.step C (World.start server sessions) w) {fl : Flight} (hfl : fl ∈ w.flights)
    (hr : fl.request.signsIn = true) {a : Answer} (ha : fl.answer = some a)
    (hsucceeded : a.succeeded = true) : ∃ uid, a = .user uid := by
  revert a
  revert hr
  refine flight_invariant (P := App.service) (J := fun fl => fl.request.signsIn = true →
    ∀ {a : Answer}, fl.answer = some a → a.succeeded = true → ∃ uid, a = .user uid) hrun rfl
    ?_ ?_ ?_ fl hfl
  · intro w i op c rs r _ _ _ _ _ a ha
    cases ha
  · intro w n o fl _ _ _ _ _ hr a ha hsucceeded
    cases ha
    exact answer_of_signsIn hr w.server o hsucceeded
  · intro w n d fl a c rs r _ _ _ _ _ _ _ _ a ha
    cases ha

/-! ## The flag of the session -/

/-- The requests of `login` and `register`. -/
def Request.opensSession : Request → Bool
  | .base .loginCallback => true
  | .base (.registerCallback _ _ _) => true
  | .base r => r.account
  | _ => false

/-- The requests of `login` and `register` that go to Firebase. -/
def Request.account : Request → Bool
  | .base r => r.account
  | _ => false

/-- What is left of a `login` or `register` when Auth has changed its current user. -/
def Request.followsAuth : Request → Bool
  | .base .loginCallback => true
  | .base (.registerCallback _ _ _) => true
  | .base (.registerWrite _ _ _) => true
  | _ => false

/-- The requests whose completions set `isLoggedIn` and do not ask Auth. -/
def Request.raisesFlag : Request → Bool
  | .base .loginCallback => true
  | .base (.registerWrite _ _ _) => true
  | _ => false

/-- A `signOut` that Auth carries out. -/
def Op.signsOut : Op → Bool
  | .signOut throws => !throws
  | _ => false

/-- The flag is raised after Auth has a user. -/
theorem raisesFlag_followsAuth {r : Request} (h : r.raisesFlag = true) : r.followsAuth = true := by
  unfold Request.raisesFlag at h
  split at h
  · rfl
  · rfl
  · cases h

/-- What follows Auth belongs to a sign-in. -/
theorem followsAuth_opensSession {r : Request} (h : r.followsAuth = true) :
    r.opensSession = true := by
  unfold Request.followsAuth at h
  split at h
  · rfl
  · rfl
  · rfl
  · cases h

/-- Nobody signs out between the success of a sign-in and its callback, or while the record of a
registration is being written. -/
def SignsOutBetween (w : World) (i : ℕ) (op : Op) : Prop :=
  op.signsOut = true → w.pending Request.raisesFlag i = 0

/-- A sign-in, a creation or the write of a record fails only while nobody is signed in, or while
another sign-in or creation that has succeeded is still to be followed up. -/
def FailsSignedOut (w : World) (fl : Flight) : Prop :=
  fl.request.account = true → ∀ a ∈ fl.answer, a.succeeded = false →
    (w.clients fl.owner).currentUser.isSome = true →
    [fl.request].countP Request.followsAuth < w.pending Request.followsAuth fl.owner

instance (w : World) (i : ℕ) (op : Op) : Decidable (SignsOutBetween w i op) :=
  inferInstanceAs (Decidable (_ → _))

instance (w : World) (fl : Flight) : Decidable (FailsSignedOut w fl) :=
  inferInstanceAs (Decidable (_ → ∀ a ∈ fl.answer, _))

/-- How the session of a client and its flag go together while `raising` and `following` requests
of the two kinds are in flight. -/
structure SessionAgrees (c : Client) (raising following : ℕ) : Prop where
  signedIn : c.currentUser.isSome = true → c.base.isLoggedIn = true ∨ following ≠ 0
  flagged : c.base.isLoggedIn = true → c.currentUser.isSome = true
  raised : raising ≠ 0 → c.currentUser.isSome = true

/-- What a call does to the session and its flag. -/
inductive SessionCalled (c : Client) (op : Op) (c' : Client) (rs : List Request) : Prop
  | kept (hflag : c'.base.isLoggedIn = c.base.isLoggedIn) (huser : c'.currentUser = c.currentUser)
      (hnone : rs.countP Request.followsAuth = 0)
  | signedOut (hop : op.signsOut = true) (hflag : c'.base.isLoggedIn = false)
      (huser : c'.currentUser = none) (hnone : rs = [])

/-- What a call does to a session. -/
theorem sessionCalled_of_call {c c' : Client} {op : Op} {rs : List Request}
    (h : c.call op = .ok (c', rs)) : SessionCalled c op c' rs := by
  cases (called_of_call h).1 with
  | signOut => exact .signedOut rfl rfl rfl rfl
  | _ => exact .kept rfl rfl rfl

/-- What a completion does to the session and its flag. -/
inductive SessionCompleted (c : Client) (r : Request) (a : Answer) (c' : Client)
    (rs : List Request) : Prop
  | kept (hr : r.followsAuth = false) (hflag : c'.base.isLoggedIn = c.base.isLoggedIn)
      (huser : c'.currentUser = c.currentUser) (hnone : rs.countP Request.followsAuth = 0)
  | refused (hr : r.account = true) (ha : a.succeeded = false) (hflag : c'.base.isLoggedIn = false)
      (huser : c'.currentUser = c.currentUser) (hnone : rs = [])
  | signedIn (hr : r.followsAuth = false) (huser : c'.currentUser.isSome = true)
      (hone : rs.countP Request.followsAuth = 1)
  | raised (hr : r.raisesFlag = true) (hflag : c'.base.isLoggedIn = true)
      (huser : c'.currentUser = c.currentUser) (hnone : rs = [])
  | goesOn (hr : r.raisesFlag = false) (huser : c'.currentUser = c.currentUser)
      (hsome : c.currentUser.isSome = true) (hone : rs.countP Request.followsAuth = 1)
  | dropped (hr : r.raisesFlag = false) (hflag : c'.base.isLoggedIn = false)
      (huser : c'.currentUser = none) (hsame : c.currentUser = none) (hnone : rs = [])

/-- Auth touches its current user only on the success of a sign-in or creation. -/
theorem authenticated_of_error (c : Client) (r : BaseViewModel.Request) (e : String) :
    c.authenticated r (.error e) = c := by
  cases r <;> rfl

/-- What a completion does to a session. -/
theorem sessionCompleted_of_completed {c c' : Client} {orders : ℕ → DictOrder} {r : Request}
    {a : Answer} {rs : List Request} (h : Completed c orders r a c' rs)
    (hanswered : r.signsIn = true → a.succeeded = true → ∃ uid, a = .user uid) :
    SessionCompleted c r a c' rs := by
  cases h with
  | base hbase =>
    cases hbase with
    | refused e hr => exact .refused hr rfl rfl (by rw [authenticated_of_error]) rfl
    | signedIn email password ha =>
      -- Auth has just signed the user in
      obtain ⟨uid, rfl⟩ := hanswered rfl (succeeded_iff.mpr ha)
      exact .signedIn rfl rfl rfl
    | created email password nameSurname ha =>
      obtain ⟨uid, rfl⟩ := hanswered rfl (succeeded_iff.mpr ha)
      exact .signedIn rfl rfl rfl
    | loggedIn a => exact .raised rfl rfl rfl rfl
    | recorded uid email nameSurname a huid =>
      exact .goesOn rfl rfl (Option.isSome_iff_exists.mpr ⟨_, huid⟩) rfl
    | notRecorded uid email nameSurname a huid => exact .dropped rfl rfl huid huid rfl
    | registered uid email nameSurname ha => exact .raised rfl rfl rfl rfl
    | fetched uid _ => exact .kept rfl (by cases a <;> rfl) rfl rfl
    | pictured uid url _ => exact .kept rfl (by cases a <;> rfl) rfl rfl
    | uploaded | located | notUploaded | notLocated => exact .kept rfl rfl rfl rfl
  | @matchs r a vm rs hmatchs =>
    exact .kept rfl rfl rfl (by simp [List.countP_eq_zero, Request.followsAuth])
  | _ => exact .kept rfl rfl rfl rfl

/-- No more requests raise the flag than follow Auth. -/
theorem countP_raisesFlag_le (rs : List Request) :
    rs.countP Request.raisesFlag ≤ rs.countP Request.followsAuth :=
  List.countP_mono_left fun _ _ => raisesFlag_followsAuth

/-- A call keeps the invariant of the session. -/
theorem sessionAgrees_of_called {c c' : Client} {op : Op} {rs : List Request} {k k' : ℕ}
    (h : SessionAgrees c k k') (hcalled : SessionCalled c op c' rs)
    (hop : op.signsOut = true → k = 0) :
    SessionAgrees c' (k + rs.countP Request.raisesFlag) (k' + rs.countP Request.followsAuth) := by
  cases hcalled with
  | kept hflag huser hnone =>
    have hraising := countP_raisesFlag_le rs
    constructor
    · rw [hflag, huser, hnone, Nat.add_zero]
      exact h.signedIn
    · rw [hflag, huser]
      exact h.flagged
    · rw [huser]
      exact fun hne => h.raised (by omega)
  | signedOut hsigns hflag huser hnone =>
    have hk := hop hsigns
    subst hnone hk
    exact ⟨by simp [huser], by simp [hflag], by simp⟩

/-- A completion keeps the invariant of the session. -/
theorem sessionAgrees_of_completed {c c' : Client} {r : Request} {a : Answer} {rs : List Request}
    {k k' : ℕ} (h : SessionAgrees c (k + [r].countP Request.raisesFlag)
      (k' + [r].countP Request.followsAuth))
    (hcompleted : SessionCompleted c r a c' rs)
    (hfails : r.account = true → a.succeeded = false → c.currentUser.isSome = true → 0 < k') :
    SessionAgrees c' (k + rs.countP Request.raisesFlag) (k' + rs.countP Request.followsAuth) := by
  have hraising := countP_raisesFlag_le rs
  cases hcompleted with
  | kept hr hflag huser hnone =>
    have hnone' : rs.countP Request.raisesFlag = 0 := by omega
    rw [hnone, hnone']
    constructor
    · intro hsome
      rw [huser] at hsome
      rw [hflag]
      simpa [hr] using h.signedIn hsome
    · rw [hflag, huser]
      exact h.flagged
    · rw [huser]
      exact fun hne => h.raised (by omega)
  | refused hr ha hflag huser hnone =>
    subst hnone
    constructor
    · intro hsome
      rw [huser] at hsome
      have hleft := hfails hr ha hsome
      exact .inr (by simpa using Nat.ne_of_gt hleft)
    · simp [hflag]
    · rw [huser]
      exact fun hne => h.raised (by simp at hne; omega)
  | signedIn hr huser hone =>
    exact ⟨fun _ => .inr (by omega), fun _ => huser, fun _ => huser⟩
  | raised hr hflag huser hnone =>
    have hsome : c'.currentUser.isSome = true := by
      rw [huser]
      exact h.raised (by simp [hr])
    exact ⟨fun _ => .inl hflag, fun _ => hsome, fun _ => hsome⟩
  | goesOn hr huser hsome hone =>
    rw [← huser] at hsome
    exact ⟨fun _ => .inr (by omega), fun _ => hsome, fun _ => hsome⟩
  | dropped hr hflag huser hsame hnone =>
    subst hnone
    refine ⟨by simp [huser], by simp [hflag], fun hne => ?_⟩
    rw [huser, ← hsame]
    exact h.raised (by simp at hne; omega)

/-- Along every run in which nobody signs out between the success of a sign-in and its callback or
while a record is being written, and sign-ins and registrations fail only while nobody is signed
in, `isLoggedIn` says whether Auth reports a user whenever no login or registration is in flight. -/
theorem session_flag_agrees {server : Firebase} {sessions : ℕ → Option String} {w : World}
    (hrun : Reaches App.step
      (fun w l => OnCall SignsOutBetween w l ∧ OnDeliver FailsSignedOut w l)
      (World.start server sessions) w) (i : ℕ)
    (hquiet : w.pending Request.opensSession i = 0) :
    (w.clients i).base.isLoggedIn = true ↔ (w.clients i).currentUser.isSome = true := by
  have hagrees : ∀ i, SessionAgrees (w.clients i) (w.pending Request.raisesFlag i)
      (w.pending Request.followsAuth i) := by
    refine hrun.invariant (I := fun w => ∀ i, SessionAgrees (w.clients i)
      (w.pending Request.raisesFlag i) (w.pending Request.followsAuth i))
      (fun i => ⟨.inl, id, fun hne => absurd rfl hne⟩) ?_
    intro w l w' hreach hI hC hstep j
    cases turn_of_step hstep j with
    | idle hclient hpending _ =>
      rw [hclient, hpending, hpending]
      exact hI j
    | called hcall hpending =>
      rw [hpending, hpending]
      exact sessionAgrees_of_called (hI j) (sessionCalled_of_call (toOption_eq_some.mp hcall)) hC.1
    | @completed n d fl a rs hget howner ha hcomplete hpending =>
      subst howner
      obtain ⟨k, hbefore, hafter⟩ := hpending Request.raisesFlag
      obtain ⟨k', hbefore', hafter'⟩ := hpending Request.followsAuth
      rw [hafter, hafter']
      refine sessionAgrees_of_completed (hbefore ▸ hbefore' ▸ hI fl.owner)
        (sessionCompleted_of_completed (completed_of_complete (toOption_eq_some.mp hcomplete)).1
          fun hr => signsIn_answered hreach (List.mem_of_getElem? hget) hr ha) ?_
      intro hr hfailed hsome
      have hleft := hC.2 fl hget hr a ha hfailed hsome
      omega
  have hnone : w.pending Request.followsAuth i = 0 := by
    have hle : w.pending Request.followsAuth i ≤ w.pending Request.opensSession i :=
      pending_mono (fun _ => followsAuth_opensSession) i
    omega
  exact ⟨(hagrees i).flagged, fun hsome => ((hagrees i).signedIn hsome).resolve_right
    fun hne => hne hnone⟩

/-- A registration that succeeds. -/
def registered : List Label :=
  [.call 0 (.register "n@mail.com" "secret" "n")] ++ roundTrip 0 { uid := "n" } ++ roundTrip 0 {} ++
    roundTrip 0 {}

/-- The flag and Auth after a registration. -/
theorem session_flag_agrees_registered :
    ∃ w, exec (restrict App.step
        fun w l => OnCall SignsOutBetween w l ∧ OnDeliver FailsSignedOut w l)
        (World.start ⟨.null, []⟩ fun _ => none) registered = some w ∧
      ((w.clients 0).base.isLoggedIn = true ↔ (w.clients 0).currentUser.isSome = true) := by
  obtain ⟨w, hw, hquiet⟩ := Option.map_eq_some_iff.mp (show (exec (restrict App.step
    fun w l => OnCall SignsOutBetween w l ∧ OnDeliver FailsSignedOut w l)
    (World.start ⟨.null, []⟩ fun _ => none) registered).map
    (fun w => w.pending Request.opensSession 0) = some 0 from by decide +kernel)
  exact ⟨w, hw, session_flag_agrees (reaches_of_exec hw) 0 hquiet⟩

/-- When the record cannot be written, Auth has the user and the flag says nobody. -/
theorem half_registered_signed_in :
    (exec (restrict App.step (OnCall fun w i op => (w.clients i).Offers op))
      (World.start ⟨.null, []⟩ fun _ => none) halfRegistered).map
      (fun w => (w.pending Request.opensSession 0, (w.clients 0).base.isLoggedIn,
        (w.clients 0).currentUser)) = some (0, false, some "n") := by
  decide +kernel

/-! ## Accounts and their records -/

/-- The record `Users/uid` names its account and has every field of `UserModel`. -/
structure WholeRecord (record : Value) (uid : String) : Prop where
  uuid : record.field "uuid" = some uid
  strings : ∀ key ∈ ["email", "nameSurname", "position", "picture", "authority"],
    (record.field key).isSome = true
  rate : ((record.child "rate").root.bind Node.asInt).isSome = true

/-- The record of a registration is whole. -/
theorem wholeRecord_registered (uid email nameSurname : String) :
    WholeRecord (.object (BaseViewModel.registerParams uid email nameSurname)) uid := by
  constructor <;>
    simp [Value.field, Json.object, BaseViewModel.registerParams, Json.leaf, Node.asString,
      Node.asInt]

/-- Replacing one of the strings keeps a record whole. -/
theorem WholeRecord.set {record : Value} {uid : String} (h : WholeRecord record uid) {key : String}
    (hkey : key ≠ "uuid" ∧ key ≠ "rate") (s : String) :
    WholeRecord (record.set [key] (.leaf (.str s))) uid := by
  refine ⟨?_, fun key' hkey' => ?_, ?_⟩
  · have hchild : (record.set [key] (.leaf (.str s))).child "uuid" = record.child "uuid" := by
      simp [hkey.1.symm]
    rw [Value.field, hchild]
    exact h.uuid
  · by_cases heq : key' = key
    · subst heq
      simp [Value.field, Json.leaf, Node.asString]
    · have hchild : (record.set [key] (.leaf (.str s))).child key' = record.child key' := by
        simp [heq]
      rw [Value.field, hchild]
      exact h.strings key' hkey'
  · have hchild : (record.set [key] (.leaf (.str s))).child "rate" = record.child "rate" := by
      simp [hkey.2.symm]
    rw [hchild]
    exact h.rate

/-- No write makes a whole record less. -/
theorem wholeRecord_serve {uid : String} (s : Firebase) (r : Request) (o : Outcome)
    (h : WholeRecord (userNode s.database uid) uid) :
    WholeRecord (userNode (r.serve s o).1.database uid) uid := by
  rcases userNode_serve s r o uid with hsame | ⟨ws, -, hw, -, hwrite⟩
  · rw [hsame]
    exact h
  · rw [hwrite]
    cases hw with
    | register email nameSurname => exact wholeRecord_registered uid email nameSurname
    | picture url => exact h.set (by decide) url
    | profile nameSurname position => exact (h.set (by decide) nameSurname).set (by decide) position

/-- The record of a registration in flight that does not fail is stored whole. -/
theorem wholeRecord_write {r : Request} {uid email nameSurname : String} {q : Remote}
    (hr : r = .base (.registerWrite uid email nameSurname)) (hq : r.remote = .ok q) (s : Firebase)
    {o : Outcome} (ho : o.error = none) :
    WholeRecord (userNode (r.serve s o).1.database uid) uid ∧ (r.serve s o).2 = .ok := by
  have hremote : r.remote = .ok (.setValue ["Users", uid]
      (.object (BaseViewModel.registerParams uid email nameSurname))) := by
    rw [hr] at hq ⊢
    simp [Request.remote, BaseViewModel.Request.remote, getReference] at hq ⊢
    exact hq.1
  have hserve : r.serve s o = (⟨s.database.set ["Users", uid]
      (.object (BaseViewModel.registerParams uid email nameSurname)), s.accounts⟩, .ok) := by
    unfold Request.serve
    rw [hremote]
    exact s.serve_setValue _ _ ho
  rw [hserve]
  refine ⟨?_, rfl⟩
  have hnode : userNode (s.database.set ["Users", uid]
      (.object (BaseViewModel.registerParams uid email nameSurname))) uid =
      .object (BaseViewModel.registerParams uid email nameSurname) := by
    simp [userNode]
  show WholeRecord (userNode (s.database.set _ _) uid) uid
  rw [hnode]
  exact wholeRecord_registered uid email nameSurname

/-- The links of a registration that will write the record of `uid`. -/
inductive Registers (uid : String) (fl : Flight) : Prop
  | created {email password nameSurname : String}
      (hr : fl.request = .base (.registerCreate email password nameSurname))
      (ha : fl.answer = some (.user uid))
  | called {email nameSurname : String}
      (hr : fl.request = .base (.registerCallback uid email nameSurname))
  | writing {email nameSurname : String}
      (hr : fl.request = .base (.registerWrite uid email nameSurname)) (ha : fl.answer = none)

/-- Every account has a whole record, or a registration in flight that will write it. -/
def AccountsCovered (w : World) : Prop :=
  ∀ account ∈ w.server.accounts, WholeRecord (userNode w.server.database account.uid) account.uid ∨
    ∃ fl ∈ w.flights, Registers account.uid fl

/-- The account whose creation a callback of `register` follows. -/
def Request.createdUser : Request → Option String
  | .base (.registerCallback uid _ _) => some uid
  | _ => none

/-- The second request of `register`. -/
def Request.writesRecord : Request → Option String
  | .base (.registerWrite uid _ _) => some uid
  | _ => none

/-- The requests of `register`. -/
def Request.registers : Request → Bool
  | .base (.registerCreate _ _ _) => true
  | .base (.registerCallback _ _ _) => true
  | .base (.registerWrite _ _ _) => true
  | _ => false

/-- The record of a new account does not fail to be written. -/
def RecordsWritten (_ : World) (fl : Flight) (o : Outcome) : Prop :=
  fl.request.writesRecord.isSome = true → o.error = none

/-- When the callback of a creation runs, the new user is still the one signed in. -/
def StaysSignedIn (w : World) (fl : Flight) : Prop :=
  ∀ uid ∈ fl.request.createdUser, (w.clients fl.owner).currentUser = some uid

instance (w : World) (fl : Flight) (o : Outcome) : Decidable (RecordsWritten w fl o) :=
  inferInstanceAs (Decidable (_ → _))

instance (w : World) (fl : Flight) : Decidable (StaysSignedIn w fl) :=
  inferInstanceAs (Decidable (∀ uid ∈ fl.request.createdUser, _))

/-- When a step of a registration has been taken, the next one is on its way. -/
theorem registers_of_completed {w w' : World} {fl : Flight} {a : Answer} {uid : String}
    {orders : ℕ → DictOrder} {c : Client} {rs : List Request} (h : Registers uid fl)
    (ha : fl.answer = some a) (hstays : StaysSignedIn w fl)
    (hcompleted : Completed (w.clients fl.owner) orders fl.request a c rs)
    (hissued : ∀ r ∈ rs, ⟨fl.owner, r, some fl.request, w.clients fl.owner, none⟩ ∈ w'.flights) :
    ∃ fl ∈ w'.flights, Registers uid fl := by
  cases h with
  | created hr ha' =>
    rw [ha] at ha'
    cases ha'
    rw [hr] at hcompleted
    cases hcompleted with
    | base hbase =>
      cases hbase with
      | created email password nameSurname _ =>
        exact ⟨_, hissued _ (List.mem_singleton_self _), .called rfl⟩
  | called hr =>
    have huser : (w.clients fl.owner).currentUser = some uid := hstays uid (by rw [hr]; rfl)
    rw [hr] at hcompleted
    cases hcompleted with
    | base hbase =>
      cases hbase with
      | recorded _ email nameSurname _ huid =>
        -- the second request takes the uid from Auth
        cases huser.symm.trans huid
        exact ⟨_, hissued _ (List.mem_singleton_self _), .writing rfl rfl⟩
      | notRecorded _ _ _ _ hnone => cases huser.symm.trans hnone
      | refused _ hr => cases hr
  | writing _ ha' =>
    rw [ha] at ha'
    cases ha'

/-- The invariant: every account has its record, or a request on its way to write it. -/
theorem accountsCovered_of_reaches {C : World → Label → Prop} {server : Firebase}
    {sessions : ℕ → Option String} {w : World}
    (hC : ∀ w l, C w l → OnServe RecordsWritten w l ∧ OnDeliver StaysSignedIn w l)
    (h₀ : ∀ account ∈ server.accounts,
      WholeRecord (userNode server.database account.uid) account.uid)
    (hrun : Reaches App.step C (World.start server sessions) w) : AccountsCovered w := by
  refine hrun.invariant (I := AccountsCovered) (fun account h => .inl (h₀ account h)) ?_
  intro w l w' hreach hI hcond hstep account haccount
  rcases server_of_step hstep with ⟨hserver, hne⟩ | ⟨n, o, fl₁, rfl, hget₁, hmem₁, hserver⟩
  · -- calls and completions: the link is kept or hands over to the next
    rw [hserver] at haccount ⊢
    rcases hI account haccount with hwhole | ⟨fl, hfl, hregisters⟩
    · exact .inl hwhole
    · refine .inr ?_
      cases fate_of_step App.service hstep hfl with
      | kept h => exact ⟨fl, h, hregisters⟩
      | served _ _ _ => exact absurd rfl (hne _ _)
      | completed hget ha hcomplete hissued =>
        exact registers_of_completed hregisters ha ((hC _ _ hcond).2 fl hget)
          (completed_of_complete (toOption_eq_some.mp hcomplete)).1 hissued
  · have hserver : w'.server = (fl₁.request.serve w.server o).1 := hserver
    rw [hserver] at haccount ⊢
    -- an account that was there before
    have hold : account ∈ w.server.accounts →
        WholeRecord (userNode (fl₁.request.serve w.server o).1.database account.uid) account.uid ∨
          ∃ fl ∈ w'.flights, Registers account.uid fl := by
      intro haccount
      rcases hI account haccount with hwhole | ⟨fl, hfl, hregisters⟩
      · exact .inl (wholeRecord_serve w.server fl₁.request o hwhole)
      · cases fate_of_step App.service hstep hfl with
        | kept h => exact .inr ⟨fl, h, hregisters⟩
        | served hget hnone h =>
          rw [hget₁] at hget
          cases hget
          cases hregisters with
          | created _ ha =>
            rw [hnone] at ha
            cases ha
          | called hr => exact .inr ⟨_, h, .called hr⟩
          | writing hr _ =>
            obtain ⟨q, hq⟩ := sent_of_reaches hreach fl₁ hfl
            have ho : o.error = none :=
              (hC _ _ hcond).1 fl₁ hget₁ (by simp [hr, Request.writesRecord])
            exact .inl (wholeRecord_write hr hq w.server ho).1
    rcases accounts_serve w.server fl₁.request o with hsame | ⟨email, password, nameSurname, uid,
      hr, -, ha, hadded⟩
    · rw [hsame] at haccount
      exact hold haccount
    · rw [hadded, List.mem_append, List.mem_singleton] at haccount
      rcases haccount with haccount | rfl
      · exact hold haccount
      · exact .inr ⟨_, hmem₁, .created hr (congrArg some ha)⟩

/-! ## Registrations that end with an alert -/

/-- The account the `register` call behind a request has created: the record carries the uid Auth
reported to the callback before it. -/
def registeredAs (fl : Flight) : Option String :=
  match fl.request with
  | .base (.registerCallback uid _ _) => some uid
  | .base (.registerWrite _ _ _) => fl.cause.bind Request.createdUser
  | _ => none

/-- Whether the completion of a request of `register` shows an alert: the request has failed, or
nobody is signed in when the callback of the creation runs. -/
def endsWithAlert (w : World) (fl : Flight) : Bool :=
  match fl.request, fl.answer with
  | .base (.registerCallback _ _ _), _ => (w.clients fl.owner).currentUser.isNone
  | _, some (.error _) => fl.request.registers
  | _, _ => false

/-- For each client the accounts created by its `register` calls that have ended with an alert. -/
def alertedAccounts (alerted : ℕ → List String) (w : World) (l : Label) (i : ℕ) : List String :=
  match l with
  | .deliver n _ =>
    match w.flights[n]? with
    | some fl =>
      if fl.owner = i ∧ endsWithAlert w fl = true then (registeredAs fl).toList ++ alerted i
      else alerted i
    | none => alerted i
  | _ => alerted i

/-- No record in flight has failed to be written. -/
theorem record_answered {C : World → Label → Prop} {server : Firebase}
    {sessions : ℕ → Option String} {w : World} (hC : ∀ w l, C w l → OnServe RecordsWritten w l)
    (hrun : Reaches App.step C (World.start server sessions) w) {fl : Flight} (hfl : fl ∈ w.flights)
    (hr : fl.request.writesRecord.isSome = true) (e : String) : fl.answer ≠ some (.error e) := by
  revert hr
  refine flight_invariant (P := App.service) (J := fun fl =>
    fl.request.writesRecord.isSome = true → fl.answer ≠ some (.error e)) hrun rfl ?_ ?_ ?_ fl hfl
  · intro w i op c rs r _ _ _ _ _
    simp
  · intro w n o fl hreach hcond hget _ _ hr
    have ho : o.error = none := hC _ _ hcond fl hget hr
    obtain ⟨q, hq⟩ := sent_of_reaches hreach fl (List.mem_of_getElem? hget)
    show some (fl.request.serve w.server o).2 ≠ some (.error e)
    obtain ⟨uid, huid⟩ := Option.isSome_iff_exists.mp hr
    unfold Request.writesRecord at huid
    split at huid
    · rename_i hreq
      rw [(wholeRecord_write hreq hq w.server ho).2]
      simp
    · cases huid
  · intro w n d fl a c rs r _ _ _ _ _ _ _ _
    simp

/-- The conditions of `registration_all_or_nothing` on a step. -/
def Completes (w : World) (l : Label) : Prop :=
  OnServe RecordsWritten w l ∧ OnDeliver StaysSignedIn w l

instance (w : World) (l : Label) : Decidable (Completes w l) :=
  inferInstanceAs (Decidable (_ ∧ _))

/-- A completion that shows an alert follows no account. -/
theorem registeredAs_of_alert {server : Firebase} {sessions : ℕ → Option String} {w : World}
    (hrun : Reaches App.step Completes (World.start server sessions) w) {fl : Flight}
    (hfl : fl ∈ w.flights) (hstays : StaysSignedIn w fl) (halert : endsWithAlert w fl = true) :
    registeredAs fl = none := by
  unfold registeredAs
  split
  · rename_i uid email nameSurname hr
    have huser : (w.clients fl.owner).currentUser = some uid := hstays uid (by rw [hr]; rfl)
    simp [endsWithAlert, hr, huser] at halert
  · rename_i uid email nameSurname hr
    cases ha : fl.answer with
    | none => simp [endsWithAlert, hr, ha] at halert
    | some a =>
      cases a with
      | error e =>
        exact absurd ha (record_answered (fun _ _ h => h.1) hrun hfl
          (by simp [hr, Request.writesRecord]) e)
      | _ => simp [endsWithAlert, hr, ha] at halert
  · rfl

/-- A user who signs out before the callback runs leaves an account without a record, and the call
ends with an alert. -/
example :
    (exec (record App.step alertedAccounts) (World.start ⟨.null, []⟩ fun _ => none, fun _ => [])
      signedOutMeanwhile).map (fun s => (s.1.flights.isEmpty, s.1.server.accounts.map Account.uid,
        (userNode s.1.server.database "n").isNull, s.2 0)) = some (true, ["n"], true, ["n"]) := by
  decide +kernel

end TifaSoccer

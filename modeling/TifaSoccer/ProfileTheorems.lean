import TifaSoccer.SessionTheorems

/-!
# The cached profile and the record

Two functions write the user's record after his registration: `loadProfileImage` puts the picture
it has written into the cached profile, `updatePlayerData` does not touch the cache at all. The
cached profile shows what the record stores (`cached_profile_current`) along runs in which no
update is applied while a profile is cached, and no write while an older value of the field is on
its way into the cache.
-/

namespace TifaSoccer

open Async Run

/-! ## The fields of a profile -/

/-- The fields of the record the user can change. -/
inductive ProfileField where
  | nameSurname | position | picture
deriving DecidableEq

namespace ProfileField

def all : List ProfileField := [.nameSurname, .position, .picture]

/-- The fields of a profile. -/
theorem mem_all (f : ProfileField) : f ∈ all := by cases f <;> decide

def key : ProfileField → String
  | .nameSurname => "nameSurname"
  | .position => "position"
  | .picture => "picture"

/-- The field in a cached profile. -/
def shown (u : UserModel) : ProfileField → Option String
  | .nameSurname => u.nameSurname
  | .position => u.position
  | .picture => u.picture

/-- The field of a record, as the decoder reads it. -/
def stored (record : Value) (f : ProfileField) : String := (record.field f.key).getD ""

/-- The value a request writes into the field of an existing record. -/
def written (uid : String) : ProfileField → Request → Option String
  | .nameSurname, .updateProfile (.updatePlayerData uid' newName _) =>
    if uid' = uid then some newName else none
  | .position, .updateProfile (.updatePlayerData uid' _ newPosition) =>
    if uid' = uid then some newPosition else none
  | .picture, .base (.loadProfileImageWrite uid' downloadURL) =>
    if uid' = uid then some downloadURL else none
  | _, _ => none

/-- The value of the field a waiting answer will put into the cached profile: that of a fetched
record, or an acknowledged picture. -/
def carried (f : ProfileField) (fl : Flight) : Option String :=
  match fl.request, fl.answer with
  | .base (.getCurrentUserData _), some a => a.value.asDictionary.map fun _ => f.stored a.value
  | .base (.loadProfileImageWrite _ downloadURL), some a =>
    if f = .picture ∧ a.succeeded = true then some downloadURL else none
  | _, _ => none

/-- A decoded profile shows what is stored. -/
theorem shown_init {v : Value} {d : Dictionary} (h : v.asDictionary = some d) (f : ProfileField) :
    f.shown (UserModel.init d) = some (f.stored v) := by
  cases f <;> exact congrArg some (string_of_asDictionary h _)

/-- `joinMatches` stores the fields as the profile shows them. -/
theorem field_record (u : UserModel) (f : ProfileField) :
    Value.field (.object u.asDictionary) f.key = f.shown u := by
  refine field_object u.asDictionary_nodup ?_
  cases f <;> simp [UserModel.asDictionary, key, shown]

end ProfileField

/-! ## Steps -/

/-- The record a request writes. -/
def Request.writesUser : Request → Option String
  | .base (.registerWrite uid _ _) => some uid
  | .base (.loadProfileImageWrite uid _) => some uid
  | .updateProfile (.updatePlayerData uid _ _) => some uid
  | _ => none

/-- A server step that changes a field of the record writes it. -/
theorem stored_serve {uid : String} {r : Request} (hr : ∀ email nameSurname,
      r ≠ .base (.registerWrite uid email nameSurname)) (s : Firebase) (o : Outcome)
    (f : ProfileField) :
    f.stored (userNode (r.serve s o).1.database uid) = f.stored (userNode s.database uid) ∨
      o.error = none ∧ (r.serve s o).2 = .ok ∧
        f.written uid r = some (f.stored (userNode (r.serve s o).1.database uid)) := by
  rcases userNode_serve s r o uid with hsame | ⟨ws, ho, hw, huid, hnode⟩
  · rw [hsame]
    exact .inl rfl
  · have hok : (r.serve s o).2 = .ok := hw.acknowledged huid s ho
    rw [hnode]
    cases hw with
    | register email nameSurname => exact absurd rfl (hr email nameSurname)
    | picture url =>
      cases f with
      | picture =>
        exact .inr ⟨ho, hok, by
          simp [ProfileField.written, ProfileField.stored, ProfileField.key, Value.field, Json.leaf,
            Node.asString]⟩
      | _ => exact .inl (by simp [ProfileField.stored, ProfileField.key, Value.field])
    | profile nameSurname position =>
      cases f with
      | picture => exact .inl (by simp [ProfileField.stored, ProfileField.key, Value.field])
      | _ =>
        exact .inr ⟨ho, hok, by
          simp [ProfileField.written, ProfileField.stored, ProfileField.key, Value.field, Json.leaf,
            Node.asString]⟩

/-- The profile after a completion shows what the answer carried, and the rest as before. -/
theorem Completed.profile {c c' : Client} {orders : ℕ → DictOrder} {fl : Flight} {a : Answer}
    {rs : List Request} (h : Completed c orders fl.request a c' rs) (ha : fl.answer = some a)
    {u' : UserModel} (hu' : c'.base.userModel = some u') (f : ProfileField) :
    (∃ v, f.carried fl = some v ∧ f.shown u' = some v) ∨
      f.carried fl = none ∧ ∃ u, c.base.userModel = some u ∧ f.shown u' = f.shown u := by
  obtain ⟨i, r, cause, c₀, answer⟩ := fl
  simp only at h ha
  subst ha
  cases h with
  | base hbase =>
    cases hbase with
    | fetched uid a =>
      have hvalue : a.value.asDictionary.map UserModel.init = some u' := by
        cases a <;> exact hu'
      obtain ⟨d, hd, rfl⟩ := Option.map_eq_some_iff.mp hvalue
      exact .inl ⟨f.stored a.value, by simp [ProfileField.carried, hd],
        ProfileField.shown_init hd f⟩
    | pictured uid url a =>
      cases a with
      | error e => exact .inr ⟨by simp [ProfileField.carried, Answer.succeeded], u', hu', rfl⟩
      | _ =>
        obtain ⟨u, hu, rfl⟩ := Option.map_eq_some_iff.mp hu'
        cases f with
        | picture => exact .inl ⟨url, rfl, rfl⟩
        | _ => exact .inr ⟨rfl, u, hu, rfl⟩
    | refused e hr =>
      refine .inr ⟨?_, u', hu', rfl⟩
      rename_i r
      cases r <;> first | rfl | cases hr
    | _ => exact .inr ⟨rfl, u', hu', rfl⟩
  | _ => exact .inr ⟨rfl, u', hu', rfl⟩

/-! ## One session -/

/-- The calls that change the session. -/
def Op.changesSession : Op → Bool
  | .login _ _ => true
  | .register _ _ _ => true
  | .signOut throws => !throws
  | _ => false

/-- Client `i` keeps its session, and nobody else writes the record of `uid`. -/
def SoleWriter (i : ℕ) (uid : String) (w : World) (l : Label) : Prop :=
  OnCall (fun _ j op => j = i → op.changesSession = false) w l ∧
    OnServe (fun _ fl _ => fl.request.writesUser = some uid → fl.owner = i) w l

instance (i : ℕ) (uid : String) (w : World) (l : Label) : Decidable (SoleWriter i uid w l) :=
  inferInstanceAs (Decidable (_ ∧ _))

/-- Only a sign-in and a sign-out change who is signed in. -/
theorem currentUser_of_called {c c' : Client} {op : Op} {rs : List Request}
    (h : Called c op c' rs) (hop : op.changesSession = false) : c'.currentUser = c.currentUser := by
  cases h with
  | signOut => cases hop
  | _ => rfl

/-- The requests a client signed in as `uid` makes: none opens a session, and what is about a
user is about `uid`. -/
def Request.ofSession (uid : String) : Request → Prop
  | .base (.login _ _) => False
  | .base .loginCallback => False
  | .base (.registerCreate _ _ _) => False
  | .base (.registerCallback _ _ _) => False
  | .base (.registerWrite _ _ _) => False
  | .base (.getCurrentUserData uid') => uid' = uid
  | .base (.loadProfileImagePut uid') => uid' = uid
  | .base (.loadProfileImageURL uid') => uid' = uid
  | .base (.loadProfileImageWrite uid' _) => uid' = uid
  | .updateProfile (.updatePlayerData uid' _ _) => uid' = uid
  | _ => True

/-- A request of the session is for its user. -/
theorem ofSession_of_call {c : Client} {op : Op} {r : Request} {uid : String}
    (hissues : CallIssues c op r) (huser : c.currentUser = some uid)
    (hop : op.changesSession = false) : r.ofSession uid := by
  have hsame : ∀ {uid'}, c.currentUser = some uid' → uid' = uid := by
    intro uid' huid'
    rw [huser] at huid'
    exact (Option.some.inj huid').symm
  cases hissues with
  | login | register => cases hop
  | getCurrentUserData huid => exact hsame huid
  | loadProfileImage huid => exact hsame huid
  | updatePlayerData _ _ huid => exact hsame huid
  | _ => trivial

/-- The next request of a chain is for the same user. -/
theorem ofSession_of_complete {order : DictOrder} {r r' : Request} {a : Answer} {uid : String}
    (hissues : CompletionIssues order r a r') (hr : r.ofSession uid) : r'.ofSession uid := by
  cases hissues with
  | loginCallback | registerCallback | record => exact hr.elim
  | imageURL => exact hr
  | imageWrite => exact hr
  | _ => trivial

/-- It signs nobody in. -/
theorem signsIn_of_ofSession {r : Request} {uid : String} (hr : r.ofSession uid) :
    r.signsIn = false := by
  unfold Request.signsIn
  split
  · exact hr.elim
  · exact hr.elim
  · rfl

/-- The client stays signed in as `uid`, and so are its requests. -/
theorem session_of_reaches {C : World → Label → Prop} {server : Firebase}
    {sessions : ℕ → Option String} {w : World} {i : ℕ} {uid : String}
    (hC : ∀ w l, C w l → SoleWriter i uid w l) (huser : sessions i = some uid)
    (hrun : Reaches App.step C (World.start server sessions) w) :
    (w.clients i).currentUser = some uid ∧
      ∀ fl ∈ w.flights, fl.owner = i → fl.request.ofSession uid := by
  refine hrun.invariant (I := fun w => (w.clients i).currentUser = some uid ∧
    ∀ fl ∈ w.flights, fl.owner = i → fl.request.ofSession uid)
    ⟨huser, fun fl hfl => by cases hfl⟩ ?_
  intro w l w' _ ⟨hcurrent, hflights⟩ hcond hstep
  have hcall := (hC w l hcond).1
  constructor
  · rcases client_of_step hstep i with
      ⟨hsame, -⟩ | ⟨op, rs, rfl, hcalled⟩ | ⟨n, d, fl, a, rs, rfl, hget, howner, ha, hcompleted⟩
    · rw [hsame]
      exact hcurrent
    · have hop : op.changesSession = false := hcall rfl
      rw [currentUser_of_called (called_of_call (toOption_eq_some.mp hcalled)).1 hop]
      exact hcurrent
    · have hsigns : fl.request.signsIn = false :=
        signsIn_of_ofSession (hflights fl (List.mem_of_getElem? hget) howner)
      rcases (completedFrom_of_complete (toOption_eq_some.mp hcompleted)).currentUser with
        hkept | ⟨hsigned, -⟩
      · rw [hkept]
        exact hcurrent
      · rw [hsigns] at hsigned
        cases hsigned
  · intro fl hfl howner
    cases origin_of_step App.service hstep hfl with
    | kept hmem => exact hflights fl hmem howner
    | called hcalled hr =>
      subst howner
      exact ofSession_of_call (issues_of_call (toOption_eq_some.mp hcalled) hr).1 hcurrent
        (hcall rfl)
    | @served n o fl₀ hget _ => exact hflights fl₀ (List.mem_of_getElem? hget) howner
    | @completed n d fl₀ a c rs r hget _ hcompleted hr =>
      exact ofSession_of_complete (issues_of_complete (toOption_eq_some.mp hcompleted) hr).1
        (hflights fl₀ (List.mem_of_getElem? hget) howner)

/-! ## The cached profile along a run -/

/-- When a write that changes a field is applied, no answer with a value of this field is waiting
for client `i`; a write whose acknowledgement does not go into the cached profile is applied only
while none is cached. -/
def AppliedUnseen (i : ℕ) (uid : String) (w : World) (fl : Flight) (o : Outcome) : Prop :=
  o.error = none → ∀ f ∈ ProfileField.all, ∀ v ∈ f.written uid fl.request,
    v ≠ f.stored (userNode w.server.database uid) →
      (∀ fl' ∈ w.flights, fl'.owner = i → (f.carried fl').isNone = true) ∧
        (f = .picture ∨ (w.clients i).base.userModel.isNone = true)

instance (i : ℕ) (uid : String) (w : World) (fl : Flight) (o : Outcome) :
    Decidable (AppliedUnseen i uid w fl o) :=
  inferInstanceAs (Decidable (_ → ∀ f ∈ ProfileField.all, _))

/-- The steps of a run of client `i` signed in as `uid`. -/
def ProfileRun (i : ℕ) (uid : String) (w : World) (l : Label) : Prop :=
  SoleWriter i uid w l ∧ OnServe (AppliedUnseen i uid) w l

instance (i : ℕ) (uid : String) (w : World) (l : Label) : Decidable (ProfileRun i uid w l) :=
  inferInstanceAs (Decidable (_ ∧ _))

/-- What waits for client `i` carries the stored value of the field, and the cached profile shows
it, or an answer that carries it is waiting. -/
structure FieldCurrent (i : ℕ) (uid : String) (f : ProfileField) (w : World) : Prop where
  cached : ∀ u ∈ (w.clients i).base.userModel,
    f.shown u = some (f.stored (userNode w.server.database uid)) ∨
      ∃ fl ∈ w.flights, fl.owner = i ∧ (f.carried fl).isSome = true
  waiting : ∀ fl ∈ w.flights, fl.owner = i → ∀ v ∈ f.carried fl,
    v = f.stored (userNode w.server.database uid)

/-- A request that has not been answered carries nothing. -/
theorem carried_of_unanswered (f : ProfileField) {fl : Flight} (h : fl.answer = none) :
    f.carried fl = none := by
  unfold ProfileField.carried
  rw [h]
  split
  · rename_i hnone
    cases hnone
  · rename_i hnone
    cases hnone
  · rfl

variable {i : ℕ} {uid : String} {f : ProfileField}

/-- A fetched record is the one the server stores. -/
theorem fetched_serve {a : Answer} {s : Firebase} {o : Outcome}
    (h : ((Request.base (.getCurrentUserData uid)).serve s o).2 = a) {d : Dictionary}
    (hd : a.value.asDictionary = some d) :
    a.value = userNode ((Request.base (.getCurrentUserData uid)).serve s o).1.database uid := by
  have hsame : userNode ((Request.base (.getCurrentUserData uid)).serve s o).1.database uid =
      userNode s.database uid := by
    rcases userNode_serve s (.base (.getCurrentUserData uid)) o uid with hsame | ⟨_, _, hw, _⟩
    · exact hsame
    · cases hw
  have hremote : ∀ q, (Request.base (.getCurrentUserData uid)).remote = .ok q →
      q = .getData ["Users", uid] := by
    intro q hq
    simp [Request.remote, BaseViewModel.Request.remote, getReference] at hq
    exact hq.2.symm
  subst h
  rw [hsame]
  rcases answer_of_getData hremote s o with hsnapshot | ⟨⟨e, he⟩, -⟩
  · rw [hsnapshot]
    rfl
  · rw [he] at hd
    cases hd

/-- An acknowledged picture is the one the server stores. -/
theorem pictured_serve {url : String} {s : Firebase} {o : Outcome}
    (h : ((Request.base (.loadProfileImageWrite uid url)).serve s o).2.succeeded = true) :
    url = ProfileField.picture.stored
      (userNode ((Request.base (.loadProfileImageWrite uid url)).serve s o).1.database uid) := by
  unfold Request.serve at h ⊢
  cases hq : (Request.base (.loadProfileImageWrite uid url)).remote with
  | error e =>
    rw [hq] at h
    cases h
  | ok q =>
    rw [hq] at h
    simp [Request.remote, BaseViewModel.Request.remote, getReference] at hq
    obtain ⟨-, rfl⟩ := hq
    cases ho : o.error with
    | some e =>
      simp only [s.serve_error _ ho] at h
      cases h
    | none =>
      simp only [s.serve_setValue _ _ ho]
      simp [userNode, ProfileField.stored, ProfileField.key, Value.field, Json.leaf, Node.asString]

/-- What the server answers is what it stores from then on. -/
theorem carried_serve {j : ℕ} {r : Request} {cause : Option Request} {c : Client} {s : Firebase}
    {o : Outcome} (hr : r.ofSession uid) {v : String}
    (hv : f.carried ⟨j, r, cause, c, some (r.serve s o).2⟩ = some v) :
    v = f.stored (userNode (r.serve s o).1.database uid) := by
  unfold ProfileField.carried at hv
  simp only at hv
  split at hv
  · rename_i hanswer
    obtain ⟨d, hd, rfl⟩ := Option.map_eq_some_iff.mp hv
    cases hr
    rw [fetched_serve (Option.some.inj hanswer) hd]
  · rename_i hanswer
    split_ifs at hv with hpicture
    cases hv
    cases hr
    obtain ⟨rfl, hsucceeded⟩ := hpicture
    rw [← Option.some.inj hanswer] at hsucceeded
    exact pictured_serve hsucceeded
  · cases hv

/-- Only the last request of an upload writes the picture. -/
theorem written_picture {r : Request} {v : String}
    (h : ProfileField.picture.written uid r = some v) :
    ∃ url, r = .base (.loadProfileImageWrite uid url) := by
  unfold ProfileField.written at h
  split at h
  · rename_i hf
    cases hf
  · rename_i hf
    cases hf
  · split_ifs at h with huid
    exact ⟨_, by rw [huid]⟩
  · cases h

/-- A server step that changes the field finds nothing waiting that carries it. -/
theorem fieldCurrent_serve {s : Firebase} {cs : ℕ → Client} {l₁ l₂ : List Flight} {j : ℕ}
    {r : Request} {cause : Option Request} {c : Client} {o : Outcome}
    (h : FieldCurrent i uid f ⟨s, cs, l₁ ++ ⟨j, r, cause, c, none⟩ :: l₂⟩)
    (howner : r.writesUser = some uid → j = i) (hown : j = i → r.ofSession uid)
    (hcond : AppliedUnseen i uid ⟨s, cs, l₁ ++ ⟨j, r, cause, c, none⟩ :: l₂⟩
      ⟨j, r, cause, c, none⟩ o) :
    FieldCurrent i uid f ⟨(r.serve s o).1, cs,
      l₁ ++ ⟨j, r, cause, c, some (r.serve s o).2⟩ :: l₂⟩ := by
  have hregister : ∀ email nameSurname, r ≠ .base (.registerWrite uid email nameSurname) := by
    rintro email nameSurname rfl
    exact hown (howner rfl)
  -- the request that is answered has carried nothing before
  have hsilent : f.carried (⟨j, r, cause, c, none⟩ : Flight) = none := carried_of_unanswered f rfl
  by_cases hsame : f.stored (userNode (r.serve s o).1.database uid) =
      f.stored (userNode s.database uid)
  · constructor
    · intro u hu
      show f.shown u = some (f.stored (userNode (r.serve s o).1.database uid)) ∨ _
      rw [hsame]
      refine (h.cached u hu).imp_right ?_
      rintro ⟨fl, hfl, hi, hcarried⟩
      rcases mem_replaced ⟨j, r, cause, c, some (r.serve s o).2⟩ hfl with rfl | hfl
      · rw [hsilent] at hcarried
        cases hcarried
      · exact ⟨fl, hfl, hi, hcarried⟩
    · intro fl hfl hi v hv
      rcases mem_replaced ⟨j, r, cause, c, none⟩ hfl with rfl | hold
      · exact carried_serve (hown hi) hv
      · rw [hsame]
        exact h.waiting fl hold hi v hv
  · obtain ⟨ho, hok, hwritten⟩ := (stored_serve hregister s o f).resolve_left hsame
    obtain ⟨hnone, hcached⟩ := hcond ho f f.mem_all _ hwritten hsame
    constructor
    · intro u hu
      -- only a picture is written while a profile is cached, and its acknowledgement carries it
      rcases hcached with rfl | hcached
      · obtain ⟨url, rfl⟩ := written_picture hwritten
        refine .inr ⟨_, List.mem_append_right _ (List.mem_cons_self ..), howner rfl, ?_⟩
        simp [ProfileField.carried, hok, Answer.succeeded]
      · rw [Option.isNone_iff_eq_none.mp hcached] at hu
        cases hu
    · intro fl hfl hi v hv
      rcases mem_replaced ⟨j, r, cause, c, none⟩ hfl with rfl | hold
      · exact carried_serve (hown hi) hv
      · rw [Option.isNone_iff_eq_none.mp (hnone fl hold hi)] at hv
        cases hv

/-- Taking an answer keeps the field current. -/
theorem fieldCurrent_complete {s : Firebase} {cs : ℕ → Client} {l₁ l₂ new : List Flight}
    {fl : Flight} {orders : ℕ → DictOrder} {a : Answer} {c : Client} {rs : List Request}
    (h : FieldCurrent i uid f ⟨s, cs, l₁ ++ fl :: l₂⟩) (howner : fl.owner = i)
    (ha : fl.answer = some a) (hcompleted : Completed (cs i) orders fl.request a c rs)
    (hnew : ∀ fl ∈ new, f.carried fl = none) :
    FieldCurrent i uid f ⟨s, Function.update cs i c, (l₁ ++ l₂) ++ new⟩ := by
  constructor
  · intro u' hu'
    replace hu' : c.base.userModel = some u' := by simpa using hu'
    rcases hcompleted.profile ha hu' f with ⟨v, hcarried, hshown⟩ | ⟨hnone, u, hu, hshown⟩
    · exact .inl (hshown.trans (congrArg some (h.waiting fl (by simp) howner v hcarried)))
    · rw [hshown]
      refine (h.cached u hu).imp_right ?_
      rintro ⟨fl', hfl', hi, hcarried⟩
      refine ⟨fl', ?_, hi, hcarried⟩
      have hne : fl' ≠ fl := by
        rintro rfl
        rw [hnone] at hcarried
        cases hcarried
      simp only [List.mem_append, List.mem_cons] at hfl' ⊢
      tauto
  · intro fl' hfl' hi v hv
    rcases List.mem_append.mp hfl' with hfl' | hfl'
    · refine h.waiting fl' ?_ hi v hv
      simp only [List.mem_append, List.mem_cons] at hfl' ⊢
      tauto
    · rw [hnew fl' hfl'] at hv
      cases hv

/-- Other clients' steps leave the field of client `i` as it is. -/
theorem fieldCurrent_other {s : Firebase} {cs cs' : ℕ → Client} {fs fs' : List Flight}
    (h : FieldCurrent i uid f ⟨s, cs, fs⟩) (hsame : cs' i = cs i)
    (hkept : ∀ fl ∈ fs, fl.owner = i → fl ∈ fs')
    (hnew : ∀ fl ∈ fs', fl ∈ fs ∨ f.carried fl = none) :
    FieldCurrent i uid f ⟨s, cs', fs'⟩ := by
  constructor
  · intro u hu
    replace hu : (cs' i).base.userModel = some u := hu
    rw [hsame] at hu
    refine (h.cached u hu).imp_right ?_
    rintro ⟨fl, hfl, hi, hcarried⟩
    exact ⟨fl, hkept fl hfl hi, hi, hcarried⟩
  · intro fl hfl hi v hv
    rcases hnew fl hfl with hold | hnone
    · exact h.waiting fl hold hi v hv
    · rw [hnone] at hv
      cases hv

/-- A request that has just been issued carries nothing. -/
theorem carried_issue (f : ProfileField) {j : ℕ} {cause : Option Request} {c : Client}
    {rs : List Request} {fl : Flight} (hfl : fl ∈ (issue j cause c rs : List Flight)) :
    f.carried fl = none := by
  obtain ⟨r, -, rfl⟩ := mem_issue.mp hfl
  exact carried_of_unanswered f rfl

/-- The invariant: each field of the cached profile is the stored one, or the write that changed it
waits for its completion. -/
theorem fieldCurrent_of_reaches {server : Firebase} {sessions : ℕ → Option String} {w : World}
    (huser : sessions i = some uid)
    (hrun : Reaches App.step (ProfileRun i uid) (World.start server sessions) w) :
    FieldCurrent i uid f w := by
  have hstart : FieldCurrent i uid f (World.start server sessions) := by
    constructor
    · intro u hu
      cases hu
    · intro fl hfl
      cases hfl
  refine hrun.invariant (I := FieldCurrent i uid f) hstart ?_
  intro w l w' hreach hI hcond hstep
  have hown := (session_of_reaches (fun _ _ h => h.1) huser hreach).2
  obtain ⟨⟨-, hserve⟩, happlied⟩ := hcond
  cases stepped_of_step App.service hstep with
  | @call s cs fs j op c rs hcall =>
    have hfrom := (calledFrom_of_call (toOption_eq_some.mp hcall)).userModel
    have hcalled : FieldCurrent i uid f ⟨s, Function.update cs j c, fs⟩ := by
      refine ⟨fun u hu => hI.cached u ?_, hI.waiting⟩
      -- a call leaves the profile or forgets it
      by_cases hj : i = j
      · subst hj
        replace hu : u ∈ c.base.userModel := by simpa using hu
        rcases hfrom with hkept | hnone
        · exact hkept ▸ hu
        · rw [hnone] at hu
          cases hu
      · simpa [hj] using hu
    refine fieldCurrent_other hcalled rfl (fun fl hfl _ => List.mem_append_left _ hfl) ?_
    intro fl hfl
    exact (List.mem_append.mp hfl).imp_right (carried_issue f)
  | @serve s cs l₁ l₂ j r cause c o =>
    have howner : r.writesUser = some uid → j = i := hserve ⟨j, r, cause, c, none⟩ (by simp)
    have hsession : j = i → r.ofSession uid := hown ⟨j, r, cause, c, none⟩ (by simp)
    exact fieldCurrent_serve hI howner hsession (happlied _ (by simp))
  | @deliver s cs l₁ l₂ j r cause c₀ a c rs d hcomplete =>
    by_cases hj : j = i
    · subst hj
      exact fieldCurrent_complete hI rfl rfl
        (completed_of_complete (toOption_eq_some.mp hcomplete)).1 fun fl hfl => carried_issue f hfl
    · refine fieldCurrent_other hI (by simp [Ne.symm hj]) (fun fl hfl hi => ?_) fun fl hfl => ?_
      · have hne : fl ≠ ⟨j, r, cause, c₀, some a⟩ := by
          rintro rfl
          exact hj hi
        simp only [List.mem_append, List.mem_cons] at hfl ⊢
        tauto
      · rcases List.mem_append.mp hfl with hold | hissued
        · left
          simp only [List.mem_append, List.mem_cons] at hold ⊢
          tauto
        · exact .inr (carried_issue f hissued)

/-- Along every run in which client `i` stays signed in as `uid`, nobody else writes the record of
`uid`, and a write that changes the record is applied only while no older value is cached or on its
way into the cache: whenever no request of the client is in flight, the cached profile shows the
name, the position and the picture the record stores, and a `joinMatches` with it writes these into
the roster. -/
theorem cached_profile_current {server : Firebase} {sessions : ℕ → Option String} {w : World}
    {i : ℕ} {uid : String} (huser : sessions i = some uid)
    (hrun : Reaches App.step (ProfileRun i uid) (World.start server sessions) w)
    (hquiet : ∀ fl ∈ w.flights, fl.owner ≠ i) {u : UserModel}
    (hu : (w.clients i).base.userModel = some u) :
    (∀ f : ProfileField, f.shown u = some (f.stored (userNode w.server.database uid))) ∧
      ∀ (m k : String) (o : Outcome), m ≠ "" → k ≠ "" → o.error = none → ∀ f : ProfileField,
        Value.field ((roster ((Request.matchs (.joinMatchesWrite m k u)).serve w.server
          o).1.database m).child k) f.key = some (f.stored (userNode w.server.database uid)) := by
  have hcurrent : ∀ f : ProfileField,
      f.shown u = some (f.stored (userNode w.server.database uid)) := by
    intro f
    rcases (fieldCurrent_of_reaches huser hrun).cached u hu with hcurrent | ⟨fl, hfl, hi, -⟩
    · exact hcurrent
    · exact absurd hi (hquiet fl hfl)
  refine ⟨hcurrent, fun m k o hm hk ho f => ?_⟩
  have hnode : (roster ((Request.matchs (.joinMatchesWrite m k u)).serve w.server
      o).1.database m).child k = .object u.asDictionary := by
    rw [roster, matchNode_write (.join k u) hm (by simp [Ne.symm hk]) w.server ho]
    simp
  rw [hnode, f.field_record, hcurrent f]

/-- A user `n` with a record and a match. -/
def userAndMatch : Firebase where
  database := (sampleMatch []).database.set ["Users", "n"] (.object (samplePlayer "n").asDictionary)
  accounts := [⟨"n", "n@mail.com", "secret"⟩]

/-- `n` updates his profile, then fetches it and changes the picture. -/
def updatedThenFetched : List Label :=
  [.call 0 (.updatePlayerData "renamed" "Stoper")] ++ roundTrip 0 {} ++
    [.call 0 .getCurrentUserData] ++ roundTrip 0 {} ++
    [.call 0 .loadProfileImage] ++ roundTrip 0 {} ++ roundTrip 0 { url := "url" } ++ roundTrip 0 {}

/-- A name is changed, and the profile fetched. -/
theorem cached_profile_current_fetched :
    ∃ w u, exec (restrict App.step (ProfileRun 0 "n")) (World.start userAndMatch fun _ => some "n")
        updatedThenFetched = some w ∧
      (w.clients 0).base.userModel = some u ∧
      u = { samplePlayer "n" with
        nameSurname := some "renamed", position := some "Stoper", picture := some "url" } ∧
      ∀ f : ProfileField, f.shown u = some (f.stored (userNode w.server.database "n")) := by
  obtain ⟨w, hw, hend⟩ := Option.map_eq_some_iff.mp (show (exec (restrict App.step
    (ProfileRun 0 "n")) (World.start userAndMatch fun _ => some "n") updatedThenFetched).map
    (fun w => (w.flights.isEmpty, (w.clients 0).base.userModel)) =
    some (true, some { samplePlayer "n" with
      nameSurname := some "renamed", position := some "Stoper", picture := some "url" })
    from by decide +kernel)
  obtain ⟨hquiet, hu⟩ := Prod.mk.inj hend
  have hempty : w.flights = [] := List.isEmpty_iff.mp hquiet
  exact ⟨w, _, hw, hu, rfl,
    (cached_profile_current rfl (reaches_of_exec hw) (by simp [hempty]) hu).1⟩

/-- `n` fetches the matches and his profile, and updates it. -/
def fetchedThenUpdated : List Label :=
  [.call 0 .getAllMatchs] ++ roundTrip 0 {} ++ [.call 0 .getCurrentUserData] ++ roundTrip 0 {} ++
    [.call 0 (.updatePlayerData "renamed" "Stoper")] ++ roundTrip 0 {}

/-- The update is stored and acknowledged and the cache has the old name, which the next
`joinMatches` puts on the roster. -/
theorem update_leaves_cache_behind :
    (exec (restrict App.step fun w l =>
        OnCall (fun w i op => (w.clients i).Offers op) w l ∧ SoleWriter 0 "n" w l)
        (World.start userAndMatch fun _ => some "n") fetchedThenUpdated).map
        (fun w => (w.flights.isEmpty, (w.clients 0).base.userModel.map UserModel.nameSurname,
          (userNode w.server.database "n").field "nameSurname")) =
        some (true, some (some "n"), some "renamed") ∧
      (exec (restrict App.step fun w l =>
        OnCall (fun w i op => (w.clients i).Offers op) w l ∧ SoleWriter 0 "n" w l)
        (World.start userAndMatch fun _ => some "n") (fetchedThenUpdated ++
          [.call 0 (.joinMatches "m" (samplePlayer "n"))] ++ roundTrip 0 {} ++ [.serve 0 {}])).map
        (fun w => (Value.field ((roster w.server.database "m").child "n") "nameSurname",
          (userNode w.server.database "n").field "nameSurname")) =
        some (some "n", some "renamed") := by
  constructor <;> decide +kernel

end TifaSoccer

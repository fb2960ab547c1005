import TifaSoccer.AloneTheorems
import TifaSoccer.Forms
import TifaSoccer.Lib.Fields
import TifaSoccer.ViewModelTheorems

/-!
# What passes the forms

* Without what is typed, a run of the devices is a run of the app in which every call is one that
  the screens offer (`devices_run_the_app`), so that what is known of such runs is known of devices;
* `stored_texts_pass_forms`: all texts in the database are such as a form lets pass, also those
  that were read, cached and written again. The reason is one invariant of the server, the devices
  and the requests in flight together: a text comes from a form, from an answer, or is the empty
  string that a decoder puts in the place of a missing one;
* `registered_can_sign_in`: what the registration form lets pass, the sign-in form lets pass too, so
  that the credentials of an account sign in to it, whatever has happened since it was created.
-/

namespace TifaSoccer

/-! ## What the buttons let pass -/

section Buttons

variable {count : String → ℕ} {first : ℕ → String → String} {op : Op}

/-- What the sign-in form hands over. -/
theorem SignInView.button_eq_some {self : SignInView} (h : (self.button count).2 = some op) :
    op = .login self.email self.password := by
  simp only [SignInView.button] at h
  split_ifs at h
  exact (Option.some.inj h).symm

/-- The form lets every valid address with a password of six characters or more pass. -/
theorem SignInView.button_of_valid {self : SignInView}
    (hemail : TifaSoccer.isValidEmail self.email = true) (hpassword : 6 ≤ count self.password) :
    self.button count = ({ self with isValidEmail := true, isValidPassword := true },
      some (.login self.email self.password)) := by
  simp only [SignInView.button]
  rw [if_neg (by simp [hemail]), if_neg (by omega)]

/-- What the registration form hands over has passed all its tests. -/
theorem RegisterView.button_eq_some {self : RegisterView} (h : (self.button count).2 = some op) :
    op = .register self.email self.password self.nameSurname ∧ isValidEmail self.email = true ∧
      count self.nameSurname ≠ 3 ∧ count self.password = 6 := by
  simp only [RegisterView.button] at h
  split_ifs at h with hemail hname hpassword hretry
  exact ⟨(Option.some.inj h).symm, by simpa using hemail, hname, by simpa using hpassword⟩

/-- What the form of a new match hands over is not empty. -/
theorem CreateMatchView.button_eq_some {self : CreateMatchView} {matchID : String}
    (h : (self.button matchID).2 = some op) :
    op = .createMatch matchID self.adminMessage self.footballArea self.matchStartDate
        self.matchFinishDate ∧ self.adminMessage ≠ "" ∧ self.footballArea ≠ "" := by
  simp only [CreateMatchView.button] at h
  split_ifs at h with harea hmessage
  exact ⟨(Option.some.inj h).symm, hmessage, harea⟩

/-- What the form of the profile hands over. -/
theorem UpdateProfileView.button_eq_some {self : UpdateProfileView}
    (h : (self.button count).2 = some op) :
    op = .updatePlayerData self.nameSurname self.position ∧ count self.nameSurname ≠ 3 := by
  simp only [UpdateProfileView.button] at h
  split_ifs at h with hname
  exact ⟨(Option.some.inj h).symm, hname⟩

/-- The button leaves the position alone. -/
theorem UpdateProfileView.button_position (self : UpdateProfileView) :
    (self.button count).1.position = self.position := by
  simp only [UpdateProfileView.button]
  split_ifs <;> rfl

/-- Whatever is typed, the text of a comment has at most as many characters as the limit. -/
theorem CommentsView.count_edit (hfirst : ∀ n s, count (first n s) ≤ n) (self : CommentsView)
    (text : String) :
    count (self.edit count first text).commentText ≤ self.characterLimit := by
  simp only [CommentsView.edit, CommentsView.limit]
  split_ifs with hlong
  · exact hfirst _ _
  · exact Nat.le_of_not_lt hlong

end Buttons

/-! ## What a device does -/

namespace Device

section Calls

variable (count : String → ℕ) (first : ℕ → String → String)

/-- The calls that a device makes, with what its forms have tested. -/
inductive Submits (d : Device) : TifaSoccer.Op → Prop
  | login (email password : String) : Submits d (.login email password)
  | register {email password nameSurname : String} (hemail : isValidEmail email = true)
      (hname : count nameSurname ≠ 3) (hpassword : count password = 6) :
      Submits d (.register email password nameSurname)
  | createMatch (matchID : String) {adminMessage footballArea : String}
      (startDate finishDate : Int64) (hmessage : adminMessage ≠ "") (harea : footballArea ≠ "") :
      Submits d (.createMatch matchID adminMessage footballArea startDate finishDate)
  | updatePlayerData {nameSurname : String} (hname : count nameSurname ≠ 3) :
      Submits d (.updatePlayerData nameSurname d.updateProfileView.position)
  | addComment (uuid date key : String) :
      Submits d (.addComment d.commentsView.commentText uuid date key)
  | other {op : TifaSoccer.Op} (hform : op.byForm = false) : Submits d op

/-- Where the fields come from that a later call reads without a test. -/
structure FormsFrom (d d' : Device) : Prop where
  position : d'.updateProfileView.position = d.updateProfileView.position ∨
    (∃ mevki : Mevki, d'.updateProfileView.position = mevki.rawValue) ∨
    ∃ user ∈ d.client.base.userModel, user.position = some d'.updateProfileView.position
  comment : d'.commentsView = d.commentsView ∨
    ∃ text, d'.commentsView = d.commentsView.edit count first text

variable {count first} {d d' : Device} {rs : List Request}

/-- Most steps leave the position and the comment as they are. -/
theorem FormsFrom.of_eq
    (hposition : d'.updateProfileView.position = d.updateProfileView.position)
    (hcomment : d'.commentsView = d.commentsView) : FormsFrom count first d d' :=
  ⟨.inl hposition, .inl hcomment⟩

/-- The client of a device is the one it was given. -/
@[simp] theorem withClient_client (d : Device) (client : Client) :
    (d.withClient client).client = client := by
  unfold withClient
  split_ifs <;> rfl

/-- A new state of the client leaves the position and the comment as they are. -/
theorem formsFrom_withClient (d : Device) (client : Client) :
    FormsFrom count first d (d.withClient client) := by
  unfold withClient
  split_ifs <;> exact .of_eq rfl rfl

/-- The form of the profile takes the cached position, or the default one. -/
theorem formsFrom_onAppear (d : Device) :
    FormsFrom count first d
      { d with updateProfileView := d.updateProfileView.onAppear d.client.base.userModel } := by
  refine ⟨?_, .inl rfl⟩
  show (d.client.base.userModel.bind UserModel.position).getD Mevki.joker.rawValue = _ ∨ _
  cases hposition : d.client.base.userModel.bind UserModel.position with
  | none => exact .inr (.inl ⟨.joker, by simp [UpdateProfileView.onAppear, hposition]⟩)
  | some position =>
    obtain ⟨user, huser, hsome⟩ := Option.bind_eq_some_iff.mp hposition
    refine .inr (.inr ⟨user, huser, ?_⟩)
    rw [hsome]
    simp [UpdateProfileView.onAppear, hposition]

/-- What a tap on a button does, with `d₁` the device after the tests. -/
theorem run_spec {d₁ : Device} {op : Option TifaSoccer.Op} (h : d₁.run op = some (d', rs))
    (hclient : d₁.client = d.client) (hforms : d₁.updateProfileView.position =
      d.updateProfileView.position ∧ d₁.commentsView = d.commentsView)
    (hop : ∀ op' ∈ op, Submits count d op' ∧ d.client.Offers op') :
    FormsFrom count first d d' ∧
      ((d'.client = d.client ∧ rs = []) ∨ ∃ op', Submits count d op' ∧ d.client.Offers op' ∧
        d.client.call op' = .ok (d'.client, rs)) := by
  cases op with
  | none =>
    cases h
    exact ⟨.of_eq hforms.1 hforms.2, .inl ⟨hclient, rfl⟩⟩
  | some op =>
    simp only [run, Option.map_eq_some_iff, toOption_eq_some, Prod.mk.injEq, Prod.exists] at h
    obtain ⟨c', rs', hcall, rfl, rfl⟩ := h
    obtain ⟨hsubmits, hoffers⟩ := hop op rfl
    rw [hclient] at hcall
    refine ⟨?_, .inr ⟨op, hsubmits, hoffers, ?_⟩⟩
    · unfold withClient
      split_ifs <;> exact .of_eq hforms.1 hforms.2
    · rw [withClient_client]
      exact hcall

/-- Everything the user can make a device do. -/
theorem call_spec {op : Op} (h : d.call count first op = some (d', rs)) :
    FormsFrom count first d d' ∧
      ((d'.client = d.client ∧ rs = []) ∨ ∃ op', Submits count d op' ∧ d.client.Offers op' ∧
        d.client.call op' = .ok (d'.client, rs)) := by
  cases op with
  | edit field text =>
    cases h
    cases field with
    | comment => exact ⟨⟨.inl rfl, .inr ⟨text, rfl⟩⟩, .inl ⟨rfl, rfl⟩⟩
    | _ => exact ⟨.of_eq rfl rfl, .inl ⟨rfl, rfl⟩⟩
  | pickStartDate date | pickFinishDate date | toggleRegisterView =>
    cases h
    exact ⟨.of_eq rfl rfl, .inl ⟨rfl, rfl⟩⟩
  | pickPosition mevki =>
    cases h
    exact ⟨⟨.inr (.inl ⟨mevki, rfl⟩), .inl rfl⟩, .inl ⟨rfl, rfl⟩⟩
  | openUpdateProfile =>
    cases h
    exact ⟨formsFrom_onAppear d, .inl ⟨rfl, rfl⟩⟩
  | tapSignIn =>
    simp only [call] at h
    split_ifs at h with hshows
    refine run_spec h rfl ⟨rfl, rfl⟩ fun op hop => ?_
    obtain rfl := SignInView.button_eq_some hop
    exact ⟨.login _ _, hshows.1, by simp [TifaSoccer.Op.adminOnly]⟩
  | tapRegister =>
    simp only [call] at h
    split_ifs at h with hshows
    refine run_spec h rfl ⟨rfl, rfl⟩ fun op hop => ?_
    obtain ⟨rfl, hemail, hname, hpassword⟩ := RegisterView.button_eq_some hop
    exact ⟨.register hemail hname hpassword, hshows.1, by simp [TifaSoccer.Op.adminOnly]⟩
  | tapCreateMatch matchID =>
    simp only [call] at h
    split_ifs at h with hid
    refine run_spec h rfl ⟨rfl, rfl⟩ fun op hop => ?_
    obtain ⟨rfl, hmessage, harea⟩ := CreateMatchView.button_eq_some hop
    exact ⟨.createMatch _ _ _ hmessage harea, ⟨hid, hmessage, harea⟩,
      by simp [TifaSoccer.Op.adminOnly]⟩
  | tapUpdateProfile =>
    simp only [call] at h
    split_ifs at h with hshows
    refine run_spec h rfl ⟨d.updateProfileView.button_position, rfl⟩ fun op hop => ?_
    obtain ⟨rfl, hname⟩ := UpdateProfileView.button_eq_some hop
    exact ⟨.updatePlayerData hname, hshows, by simp [TifaSoccer.Op.adminOnly]⟩
  | tapComment uuid date key =>
    simp only [call] at h
    split_ifs at h with hshows
    refine run_spec h rfl ⟨rfl, rfl⟩ fun op hop => ?_
    obtain rfl := (Option.some.inj hop).symm
    exact ⟨.addComment uuid date key, hshows, by simp [TifaSoccer.Op.adminOnly, CommentsView.send]⟩
  | other op =>
    simp only [call] at h
    split_ifs at h with hoffers
    refine run_spec h rfl ⟨rfl, rfl⟩ fun op' hop => ?_
    obtain rfl := (Option.some.inj hop).symm
    exact ⟨.other hoffers.1, hoffers.2⟩

/-- A completion runs on the client; the forms are at most closed. -/
theorem complete_spec {orders : ℕ → DictOrder} {r : Request} {a : Answer}
    (h : d.complete orders r a = some (d', rs)) :
    FormsFrom count first d d' ∧ d.client.complete orders r a = .ok (d'.client, rs) := by
  simp only [complete, Option.map_eq_some_iff, toOption_eq_some, Prod.mk.injEq, Prod.exists] at h
  obtain ⟨c', rs', hcomplete, rfl, rfl⟩ := h
  exact ⟨formsFrom_withClient d c', by rw [hcomplete, withClient_client]⟩

end Calls

section Runs

open Run Async

variable {count : String → ℕ} {first : ℕ → String → String}

/-- The devices are a front end of the app. -/
theorem frontEnd : FrontEnd (service count first) App.service Client.Offers client where
  call := by
    intro d op d' rs h
    refine (call_spec h).2.imp id ?_
    rintro ⟨op', -, hoffers, hcall⟩
    exact ⟨op', hoffers, toOption_eq_some.mpr hcall⟩
  serve := rfl
  complete := by
    intro d r a orders d' rs h
    have hspec : FormsFrom count first d d' ∧ _ := complete_spec h
    exact toOption_eq_some.mpr hspec.2

/-- Without what is typed, a run of the devices is a run of the app in which the screens offer every
call. -/
theorem devices_run_the_app {C : World → Label → Prop} {server : Firebase}
    {sessions : ℕ → Option String} {w : World}
    (hrun : Reaches (service count first).step C (World.start server sessions) w) :
    Reaches App.step (OnCall fun w i op => (w.clients i).Offers op)
      (TifaSoccer.World.start server sessions) (w.project client) :=
  frontEnd.reaches hrun

/-- `prefix` of a text whose characters are single scalars, for concrete runs. -/
def scalarsFirst (n : ℕ) (s : String) : String := String.ofList (s.toList.take n)

/-- The server takes the first request and its device gets the answer, for concrete runs. -/
def roundTrip (o : Outcome) : List Label := [.serve 0 o, .deliver 0 fun _ => .byKey]

/-- Device 1 registers a user, who then types the credentials on device 0. -/
def registersAndTypes : List Label :=
  [.call 1 .toggleRegisterView, .call 1 (.edit .registerEmail "n@mail.com"),
    .call 1 (.edit .registerNameSurname "nord"), .call 1 (.edit .registerPassword "secret"),
    .call 1 (.edit .registerPasswordRetry "secret"), .call 1 .tapRegister] ++
    roundTrip { uid := "n" } ++ roundTrip {} ++ roundTrip {} ++
    [.call 0 (.edit .signInEmail "n@mail.com"), .call 0 (.edit .signInPassword "secret")]

/-- The run of the app behind a registration. -/
theorem devices_run_the_app_registration :
    ∃ w, exec (restrict (service String.length scalarsFirst).step fun _ _ => True)
        (World.start ⟨.null, []⟩ fun _ => none) registersAndTypes = some w ∧
      w.server.accounts = [⟨"n", "n@mail.com", "secret"⟩] ∧
      Reaches App.step (OnCall fun w i op => (w.clients i).Offers op)
        (TifaSoccer.World.start ⟨.null, []⟩ fun _ => none) (w.project client) := by
  obtain ⟨w, hw, haccounts⟩ := Option.map_eq_some_iff.mp (show (exec (restrict
    (service String.length scalarsFirst).step fun _ _ => True)
    (World.start ⟨.null, []⟩ fun _ => none) registersAndTypes).map
    (fun w => w.server.accounts) = some [⟨"n", "n@mail.com", "secret"⟩] from by decide +kernel)
  exact ⟨w, hw, haccounts, devices_run_the_app (reaches_of_exec hw)⟩

end Runs

end Device

/-! ## Texts that a form lets pass -/

section Texts

variable (count : String → ℕ)

/-- What the forms ask of the text under a key. A decoder puts the empty string in the place of a
missing address or position, and it is written like any other one. -/
def TextOk (key s : String) : Prop :=
  if key = "email" then s = "" ∨ isValidEmail s = true
  else if key = "nameSurname" then count s ≠ 3
  else if key = "position" then s = "" ∨ ∃ mevki : Mevki, mevki.rawValue = s
  else if key = "positionForMatch" then ∃ position : PlayerPosition, position.rawValue = s
  else if key = "comment" then count s ≤ 100
  else if key = "footballArea" ∨ key = "adminMessage" then s ≠ ""
  else True

def ScalarOk (key : String) : Scalar → Prop
  | .str s => TextOk count key s
  | _ => True

/-- The texts of a profile that the app copies. -/
structure UserOk (user : UserModel) : Prop where
  email : ∀ s ∈ user.email, TextOk count "email" s
  nameSurname : ∀ s ∈ user.nameSurname, TextOk count "nameSurname" s
  position : ∀ s ∈ user.position, TextOk count "position" s

/-- The texts of the database and the accounts. -/
structure TextsOk (s : Firebase) : Prop where
  database : s.database.Fields (ScalarOk count)
  accounts : ∀ a ∈ s.accounts, isValidEmail a.email = true ∧ count a.password = 6

/-- The texts that a request carries. -/
def RequestOk : Request → Prop
  | .base (.registerCreate email password nameSurname) =>
    isValidEmail email = true ∧ count nameSurname ≠ 3 ∧ count password = 6
  | .base (.registerCallback _ email nameSurname) =>
    isValidEmail email = true ∧ count nameSurname ≠ 3
  | .base (.registerWrite _ email nameSurname) =>
    isValidEmail email = true ∧ count nameSurname ≠ 3
  | .matchs (.joinMatchesRead _ _ user) => UserOk count user
  | .matchs (.joinMatchesWrite _ _ user) => UserOk count user
  | .matchs (.setPlayerPositionWithMatch _ k player) =>
    UserOk count player ∧ ∃ position : PlayerPosition, position.rawValue = k
  | .matchs (.addComment _ _ comment _ _) => count comment ≤ 100
  | .createMatch (.createMatch _ adminMessage footballArea _ _) =>
    adminMessage ≠ "" ∧ footballArea ≠ ""
  | .updateProfile (.updatePlayerData _ nameSurname position) =>
    count nameSurname ≠ 3 ∧ TextOk count "position" position
  | _ => True

variable {count}

/-! ### Writing -/

/-- A leaf is such a value if its text is. -/
theorem ok_leaf {key : String} {x : Scalar} (h : ScalarOk count key x) :
    (Json.leaf x).Fields (ScalarOk count) ∧ (Json.leaf x).Suits (ScalarOk count) key :=
  ⟨Json.fields_leaf x, Json.suits_leaf h⟩

/-- No value is such a value. -/
theorem ok_null (key : String) :
    (Json.null : Value).Fields (ScalarOk count) ∧ Json.null.Suits (ScalarOk count) key :=
  ⟨Json.fields_null, Json.suits_null key⟩

/-- An optional string is such a value if its text is. -/
theorem ok_stringValue {key : String} {s : Option String} (h : ∀ t ∈ s, TextOk count key t) :
    (stringValue s).Fields (ScalarOk count) ∧ (stringValue s).Suits (ScalarOk count) key := by
  cases s with
  | none => exact ok_null key
  | some t => exact ok_leaf (h t rfl)

/-- A number is such a value. -/
theorem ok_intValue (key : String) (n : Option Int64) :
    (intValue n).Fields (ScalarOk count) ∧ (intValue n).Suits (ScalarOk count) key := by
  cases n with
  | none => exact ok_null key
  | some n => exact ok_leaf trivial

/-- An object is such a value if its fields are. -/
theorem ok_object {fields : List (String × Value)}
    (h : ∀ f ∈ fields, f.2.Fields (ScalarOk count) ∧ f.2.Suits (ScalarOk count) f.1)
    (key : String) :
    (Json.object fields).Fields (ScalarOk count) ∧
      (Json.object fields).Suits (ScalarOk count) key :=
  ⟨Json.fields_object h, Json.suits_object key fields⟩

/-- Nothing is asked of a text under any other key. -/
theorem textOk_picture (s : String) : TextOk count "picture" s := by simp [TextOk]

/-- Nothing is asked of a uid. -/
theorem textOk_uuid (s : String) : TextOk count "uuid" s := by simp [TextOk]

/-- Nothing is asked of a role. -/
theorem textOk_authority (s : String) : TextOk count "authority" s := by simp [TextOk]

/-- A copied profile is written with such texts. -/
theorem UserOk.asDictionary {user : UserModel} (h : UserOk count user) :
    ∀ f ∈ user.asDictionary, f.2.Fields (ScalarOk count) ∧ f.2.Suits (ScalarOk count) f.1 := by
  simp only [UserModel.asDictionary, List.forall_mem_cons]
  exact ⟨ok_stringValue h.email, ok_stringValue h.nameSurname, ok_stringValue h.position,
    ok_intValue _ _, ok_stringValue fun s _ => textOk_picture s,
    ok_stringValue fun s _ => textOk_uuid s, ok_stringValue fun s _ => textOk_authority s, by simp⟩

/-- The decoded text of a field, or the empty string in its place. -/
theorem textOk_getD {key : String} {s : Option String} (hempty : TextOk count key "")
    (h : ∀ t ∈ s, TextOk count key t) : TextOk count key (s.getD "") := by
  cases s with
  | none => exact hempty
  | some t => exact h t rfl

/-- The profile of a player on the pitch. -/
theorem UserOk.castUserPositionModel {user : UserModel} (hempty : count "" = 0)
    (h : UserOk count user) (position : PlayerPosition) :
    ∀ f ∈ (user.castUserPositionModel position.rawValue).asDictionary,
      f.2.Fields (ScalarOk count) ∧ f.2.Suits (ScalarOk count) f.1 := by
  have hcast : user.castUserPositionModel position.rawValue =
      ⟨some (user.email.getD ""), some (user.nameSurname.getD ""), some (user.position.getD ""),
        some (user.rate.getD 0), some (user.picture.getD ""), some (user.uuid.getD ""),
        some (user.authority.getD ""), some position.rawValue⟩ := rfl
  rw [hcast]
  simp only [UserPositionModel.asDictionary, List.forall_mem_cons]
  refine ⟨ok_leaf ?_, ok_leaf ?_, ok_leaf ?_, ok_leaf trivial, ok_leaf (textOk_picture _),
    ok_leaf (textOk_uuid _), ok_leaf (textOk_authority _), ok_leaf ?_, by simp⟩
  · exact textOk_getD (by simp [TextOk]) h.email
  · exact textOk_getD (by simp [TextOk, hempty]) h.nameSurname
  · exact textOk_getD (by simp [TextOk]) h.position
  · show TextOk count "positionForMatch" _
    simp [TextOk]

/-- What a request writes below a match. -/
theorem MatchWrite.ok {m : String} {r : Request} {p : List String} {v : Value}
    (hempty : count "" = 0) (h : MatchWrite m r p v) (hr : RequestOk count r) (key : String) :
    v.Fields (ScalarOk count) ∧ v.Suits (ScalarOk count) key := by
  cases h with
  | join u user => exact ok_object (UserOk.asDictionary hr) key
  | assign k player =>
    obtain ⟨hplayer, position, rfl⟩ := hr
    exact ok_object (hplayer.castUserPositionModel hempty position) key
  | planning b => exact ok_leaf trivial
  | comment k comment uuid date =>
    have hcomment : count comment ≤ 100 := hr
    refine ok_object ?_ key
    simp only [MatchsViewModel.commentParams, List.forall_mem_cons]
    refine ⟨ok_leaf ?_, ok_leaf (textOk_uuid _), ok_leaf ?_, by simp⟩
    · show TextOk count "comment" comment
      simpa [TextOk] using hcomment
    · show TextOk count "date" date
      simp [TextOk]
  | create adminMessage footballArea startDate finishDate =>
    refine ok_object ?_ key
    simp only [CreateMatchViewModel.matchParams, List.forall_mem_cons]
    refine ⟨ok_leaf ?_, ok_leaf trivial, ok_leaf trivial, ok_leaf ?_, ok_leaf ?_, ok_leaf trivial,
      by simp⟩
    · show TextOk count "adminMessage" adminMessage
      simpa [TextOk] using hr.1
    · show TextOk count "footballArea" footballArea
      simpa [TextOk] using hr.2
    · show TextOk count "matchID" m
      simp [TextOk]
  | _ => exact ok_null key

/-- The record of a new user has such texts. -/
theorem ok_registerParams (uid : String) {email nameSurname : String}
    (hemail : isValidEmail email = true) (hname : count nameSurname ≠ 3) :
    ∀ f ∈ BaseViewModel.registerParams uid email nameSurname,
      f.2.Fields (ScalarOk count) ∧ f.2.Suits (ScalarOk count) f.1 := by
  simp only [BaseViewModel.registerParams, List.forall_mem_cons]
  refine ⟨ok_leaf ?_, ok_leaf ?_, ok_leaf ?_, ok_leaf trivial, ok_leaf (textOk_picture _),
    ok_leaf (textOk_uuid _), ok_leaf (textOk_authority _), by simp⟩
  · show TextOk count "email" email
    simp [TextOk, hemail]
  · show TextOk count "nameSurname" nameSurname
    simpa [TextOk] using hname
  · show TextOk count "position" Mevki.joker.rawValue
    simp [TextOk]

/-- What a request writes below a user. -/
theorem UserWrite.ok {uid : String} {r : Request} {ws : List (List String × Value)}
    (h : UserWrite uid r ws) (hr : RequestOk count r) :
    ∀ w ∈ ws, w.2.Fields (ScalarOk count) ∧
      ∀ key ∈ ("Users" :: uid :: w.1).getLast?, w.2.Suits (ScalarOk count) key := by
  cases h with
  | register email nameSurname =>
    simp only [List.forall_mem_cons]
    have hobject := ok_object (ok_registerParams uid hr.1 hr.2)
    exact ⟨⟨(hobject uid).1, fun key _ => (hobject key).2⟩, by simp⟩
  | picture url =>
    simp only [List.forall_mem_cons]
    refine ⟨⟨Json.fields_leaf _, fun key hkey => ?_⟩, by simp⟩
    obtain rfl : "picture" = key := by simpa using hkey
    exact Json.suits_leaf (textOk_picture url)
  | profile nameSurname position =>
    simp only [List.forall_mem_cons]
    refine ⟨⟨Json.fields_leaf _, fun key hkey => ?_⟩, ⟨Json.fields_leaf _, fun key hkey => ?_⟩,
      by simp⟩
    · obtain rfl : "nameSurname" = key := by simpa using hkey
      refine Json.suits_leaf ?_
      show TextOk count "nameSurname" nameSurname
      simpa [TextOk] using hr.1
    · obtain rfl : "position" = key := by simpa using hkey
      exact Json.suits_leaf hr.2

/-- A request with such texts leaves such texts in the database. -/
theorem fields_serve (hempty : count "" = 0) {s : Firebase} {r : Request} (o : Outcome)
    (hs : s.database.Fields (ScalarOk count)) (hr : RequestOk count r) :
    (r.serve s o).1.database.Fields (ScalarOk count) := by
  rcases database_serve s r o with hsame | ⟨q, hq, -, hwrite⟩
  · rw [hsame]
    exact hs
  · rw [hwrite]
    rcases write_cases hq with hread | ⟨m, p, v, hw, -, hset⟩ | ⟨uid, ws, hw, -, hset⟩
    · rw [hread]
      exact hs
    · rw [hset]
      exact hs.set (hw.ok hempty hr "").1 fun key _ => (hw.ok hempty hr key).2
    · rw [hset]
      have hok := hw.ok hr
      clear hw hset hwrite
      -- one field after the other
      induction ws generalizing s with
      | nil => exact hs
      | cons w ws ih =>
        obtain ⟨hfields, hsuits⟩ := hok w (List.mem_cons_self ..)
        exact ih (s := ⟨s.database.set ("Users" :: uid :: w.1) w.2, s.accounts⟩)
          (hs.set hfields hsuits) fun w' hw' => hok w' (List.mem_cons_of_mem _ hw')

/-! ### Reading -/

/-- Every answer carries a value of the database, or none. -/
theorem value_serve (s : Firebase) (r : Request) (o : Outcome) :
    (r.serve s o).2.value = .null ∨ ∃ ref, (r.serve s o).2.value = s.database.get ref := by
  unfold Request.serve
  split
  · rename_i q hq
    unfold Firebase.serve
    split
    · exact .inl rfl
    · exact .inl rfl
    · cases q with
      | getData ref => exact .inr ⟨ref, rfl⟩
      | signIn email password =>
        simp only [Remote.answer]
        split <;> exact .inl rfl
      | _ => exact .inl rfl
  · exact .inl rfl

/-- A field that is read as a string is a leaf with this string. -/
theorem child_of_field {v : Value} {key s : String} (h : v.field key = some s) :
    v.child key = .leaf (.str s) := by
  obtain ⟨t, ht, hs⟩ := Option.bind_eq_some_iff.mp h
  refine Json.ext ?_
  cases t with
  | object es => cases hs
  | leaf x =>
    cases x with
    | str s' =>
      cases hs
      exact ht
    | _ => cases hs

/-- A decoded text is such a text where the empty string is one. -/
theorem textOk_string {v : Value} {d : Dictionary} (hv : v.Fields (ScalarOk count))
    (hd : v.asDictionary = some d) {key : String} (hempty : TextOk count key "") :
    TextOk count key (d.string key) := by
  rw [string_of_asDictionary hd]
  exact textOk_getD hempty fun s hs => hv.suits key _ (child_of_field hs)

/-- A decoded profile has such texts. -/
theorem userOk_init (hempty : count "" = 0) {v : Value} {d : Dictionary}
    (hv : v.Fields (ScalarOk count)) (hd : v.asDictionary = some d) :
    UserOk count (UserModel.init d) := by
  refine ⟨?_, ?_, ?_⟩
  · rintro s ⟨⟩
    exact textOk_string hv hd (by simp [TextOk])
  · rintro s ⟨⟩
    exact textOk_string hv hd (by simp [TextOk, hempty])
  · rintro s ⟨⟩
    exact textOk_string hv hd (by simp [TextOk])

/-- The players of a decoded match have such texts. -/
theorem userOk_players (hempty : count "" = 0) {v : Value} {d : Dictionary}
    (hv : v.Fields (ScalarOk count)) (hd : v.asDictionary = some d) (order : DictOrder) :
    ∀ user ∈ (MatchsModel.init order d).players.getD [], UserOk count user := by
  intro user huser
  obtain ⟨⟨k, dk⟩, hmem, rfl⟩ := List.mem_map.mp huser
  have hk := mem_nested hd ((order.perm _ _).mem_iff.mp hmem)
  exact userOk_init hempty ((hv.child "players").child k) hk

/-- The profile after a completion: decoded from the answer, or the old one with at most another
picture. -/
theorem BaseCompleted.profile {self vm : BaseViewModel} {currentUserID : Option String}
    {r : BaseViewModel.Request} {a : Answer} {rs : List BaseViewModel.Request}
    (h : BaseCompleted self currentUserID r a vm rs) :
    ∀ user ∈ vm.userModel, (∃ d, a.value.asDictionary = some d ∧ user = .init d) ∨
      ∃ user' ∈ self.userModel, user = { user' with picture := user.picture } := by
  intro user huser
  cases h with
  | fetched uid a =>
    have hfetched : (self.getCurrentUserDataCompletion a).userModel =
        a.value.asDictionary.map UserModel.init := by cases a <;> rfl
    rw [hfetched] at huser
    obtain ⟨d, hd, rfl⟩ := Option.map_eq_some_iff.mp huser
    exact .inl ⟨d, hd, rfl⟩
  | pictured uid url a =>
    right
    cases a with
    | error e => exact ⟨user, huser, rfl⟩
    | _ =>
      obtain ⟨user', huser', rfl⟩ := Option.map_eq_some_iff.mp huser
      exact ⟨user', huser', rfl⟩
  | _ => exact .inr ⟨user, huser, rfl⟩

/-- The cached profile after any completion. -/
theorem profile_of_complete {c c' : Client} {orders : ℕ → DictOrder} {r : Request} {a : Answer}
    {rs : List Request} (h : c.complete orders r a = .ok (c', rs)) :
    ∀ user ∈ c'.base.userModel, (∃ d, a.value.asDictionary = some d ∧ user = .init d) ∨
      ∃ user' ∈ c.base.userModel, user = { user' with picture := user.picture } := by
  cases (completed_of_complete h).1 with
  | base hbase => exact hbase.profile
  | _ => exact fun user huser => .inr ⟨user, huser, rfl⟩

end Texts

/-! ## Every stored text passes a form -/

namespace Device

section Invariant

variable (count : String → ℕ)

/-- The texts that a device can send without another test. -/
structure TextsOk (d : Device) : Prop where
  profile : ∀ user ∈ d.client.base.userModel, UserOk count user
  unselectedPlayer : ∀ user ∈ d.client.matchs.unselectedPlayer, UserOk count user
  position : TextOk count "position" d.updateProfileView.position
  comment : count d.commentsView.commentText ≤ 100
  characterLimit : d.commentsView.characterLimit = 100

variable {count} {first : ℕ → String → String} {d d' : Device} {rs : List Request}

/-- The fields of the forms stay such texts. -/
theorem TextsOk.of_forms (hfirst : ∀ n s, count (first n s) ≤ n) (h : d.TextsOk count)
    (hforms : FormsFrom count first d d')
    (hprofile : ∀ user ∈ d'.client.base.userModel, UserOk count user)
    (hunselected : ∀ user ∈ d'.client.matchs.unselectedPlayer, UserOk count user) :
    d'.TextsOk count := by
  refine ⟨hprofile, hunselected, ?_, ?_, ?_⟩
  · rcases hforms.position with hsame | ⟨mevki, hmevki⟩ | ⟨user, huser, hposition⟩
    · rw [hsame]
      exact h.position
    · rw [hmevki]
      simp [TextOk]
    · exact (h.profile user huser).position _ hposition
  · rcases hforms.comment with hsame | ⟨text, htext⟩
    · rw [hsame]
      exact h.comment
    · rw [htext, ← h.characterLimit]
      exact CommentsView.count_edit hfirst d.commentsView text
  · rcases hforms.comment with hsame | ⟨text, htext⟩
    · rw [hsame]
      exact h.characterLimit
    · rw [htext]
      simp only [CommentsView.edit, CommentsView.limit]
      split_ifs <;> exact h.characterLimit

/-- A call carries texts that its form has tested, or texts of the caches. -/
theorem requestOk_of_call {op : TifaSoccer.Op} {r : Request} (h : d.TextsOk count)
    (hsubmits : Submits count d op) (hoffers : d.client.Offers op)
    (hissues : CallIssues d.client op r) : RequestOk count r := by
  cases hissues with
  | register =>
    cases hsubmits with
    | register hemail hname hpassword => exact ⟨hemail, hname, hpassword⟩
    | other hform => cases hform
  | joinMatches => exact h.profile _ hoffers.1.1
  | setPlayerPositionWithMatch =>
    obtain ⟨-, -, ⟨position, -, hposition⟩, hplayer, -⟩ := hoffers.1
    exact ⟨h.unselectedPlayer _ hplayer, position, hposition⟩
  | addComment =>
    cases hsubmits with
    | addComment => exact h.comment
    | other hform => cases hform
  | createMatch =>
    cases hsubmits with
    | createMatch _ _ _ hmessage harea => exact ⟨hmessage, harea⟩
    | other hform => cases hform
  | updatePlayerData =>
    cases hsubmits with
    | updatePlayerData hname => exact ⟨hname, h.position⟩
    | other hform => cases hform
  | _ => trivial

/-- What the user does keeps the texts of the device, and its requests carry such texts. -/
theorem textsOk_of_call {op : Op} (hfirst : ∀ n s, count (first n s) ≤ n) (h : d.TextsOk count)
    (hcall : d.call count first op = some (d', rs)) :
    d'.TextsOk count ∧ ∀ r ∈ rs, RequestOk count r := by
  obtain ⟨hforms, ⟨hclient, rfl⟩ | ⟨op', hsubmits, hoffers, hcall'⟩⟩ := call_spec hcall
  · refine ⟨h.of_forms hfirst hforms ?_ ?_, by simp⟩
    · rw [hclient]
      exact h.profile
    · rw [hclient]
      exact h.unselectedPlayer
  · have hfrom := calledFrom_of_call hcall'
    refine ⟨h.of_forms hfirst hforms ?_ ?_, fun r hr => ?_⟩
    · rcases hfrom.userModel with hsame | hnone
      · rw [hsame]
        exact h.profile
      · rw [hnone]
        simp
    · rw [hfrom.unselectedPlayer]
      exact h.unselectedPlayer
    · exact requestOk_of_call h hsubmits hoffers (issues_of_call hcall' hr).1

/-- The next request of a chain carries texts of the one before. -/
theorem requestOk_of_complete {order : DictOrder} {r r' : Request} {a : Answer}
    (hr : RequestOk count r) (h : CompletionIssues order r a r') : RequestOk count r' := by
  cases h with
  | joinWrite => exact hr
  | registerCallback => exact ⟨hr.1, hr.2.1⟩
  | record => exact hr
  | _ => trivial

/-- A completion keeps the texts of the device if the answer has such texts. -/
theorem textsOk_of_complete {orders : ℕ → DictOrder} {r : Request} {a : Answer}
    (hempty : count "" = 0) (hfirst : ∀ n s, count (first n s) ≤ n) (h : d.TextsOk count)
    (hr : RequestOk count r) (ha : a.value.Fields (ScalarOk count))
    (hcomplete : d.complete orders r a = some (d', rs)) :
    d'.TextsOk count ∧ ∀ r' ∈ rs, RequestOk count r' := by
  have hspec : FormsFrom count first d d' ∧ _ := complete_spec hcomplete
  obtain ⟨hforms, hcomplete'⟩ := hspec
  refine ⟨h.of_forms hfirst hforms (fun user huser => ?_) (fun user huser => ?_), fun r' hr' => ?_⟩
  · rcases profile_of_complete hcomplete' user huser with ⟨d₁, hd₁, rfl⟩ | ⟨user', huser', hsame⟩
    · exact userOk_init hempty ha hd₁
    · have hok := h.profile user' huser'
      rw [hsame]
      exact ⟨hok.email, hok.nameSurname, hok.position⟩
  · rcases (completedFrom_of_complete hcomplete').selection with
      ⟨-, hsame, -⟩ | ⟨m, d₁, -, hd₁, -, hunselected⟩
    · rw [hsame] at huser
      exact h.unselectedPlayer user huser
    · rw [hunselected, selectMatch_unselectedPlayer] at huser
      exact userOk_players hempty ha hd₁ _ user (List.mem_of_mem_filter huser)
  · exact requestOk_of_complete hr (issues_of_complete hcomplete' hr').1

open Run Async

/-- The texts of a request in flight and of its answer. -/
def FlightOk (count : String → ℕ) (fl : Flight) : Prop :=
  RequestOk count fl.request ∧ ∀ a ∈ fl.answer, a.value.Fields (ScalarOk count)

/-- A request with such texts leaves such texts on the server. -/
theorem textsOk_serve (hempty : count "" = 0) {s : Firebase} {r : Request} (o : Outcome)
    (hs : TifaSoccer.TextsOk count s) (hr : RequestOk count r) :
    TifaSoccer.TextsOk count (r.serve s o).1 := by
  refine ⟨fields_serve hempty o hs.database hr, ?_⟩
  rcases accounts_serve s r o with hsame | ⟨email, password, nameSurname, uid, rfl, -, -, hnew⟩
  · rw [hsame]
    exact hs.accounts
  · rw [hnew]
    simp only [List.forall_mem_append, List.forall_mem_cons]
    exact ⟨hs.accounts, ⟨hr.1, hr.2.2⟩, by simp⟩

/-- The invariant: such texts in the database, on the devices and in flight. -/
theorem textsOk_of_reaches (hempty : count "" = 0) (hfirst : ∀ n s, count (first n s) ≤ n)
    {C : World → Label → Prop} {server : Firebase} {sessions : ℕ → Option String} {w : World}
    (hserver : TifaSoccer.TextsOk count server)
    (hrun : Reaches (service count first).step C (World.start server sessions) w) :
    TifaSoccer.TextsOk count w.server ∧ (∀ i, (w.clients i).TextsOk count) ∧
      ∀ fl ∈ w.flights, FlightOk count fl := by
  refine joint_invariant (Q := fun d => d.TextsOk count) (J := FlightOk count) hrun hserver ?_ rfl
    ?_ ?_ ?_
  · intro i
    exact ⟨by simp [World.start, Client.start, BaseViewModel.init],
      by simp [World.start, Client.start], by simp [World.start, TextOk],
      by simp [World.start, hempty], rfl⟩
  · rintro w n o fl - hI ⟨hr, -⟩ - -
    refine ⟨textsOk_serve hempty o hI hr, hr, ?_⟩
    rintro a ⟨⟩
    show (fl.request.serve w.server o).2.value.Fields (ScalarOk count)
    rcases value_serve w.server fl.request o with hnull | ⟨ref, hget⟩
    · rw [hnull]
      exact Json.fields_null
    · rw [hget]
      exact hI.database.get ref
  · intro w i op d rs _ hQ _ hcall
    obtain ⟨hd, hrs⟩ := textsOk_of_call hfirst hQ hcall
    exact ⟨hd, fun r hr => ⟨hrs r hr, by simp⟩⟩
  · rintro w n orders fl a d rs - hQ ⟨hr, ha⟩ - - hanswer hcomplete
    obtain ⟨hd, hrs⟩ := textsOk_of_complete hempty hfirst hQ hr (ha a hanswer) hcomplete
    exact ⟨hd, fun r hr => ⟨hrs r hr, by simp⟩⟩

/-- Whatever users type and tap on any number of devices: all texts in the database and all
credentials are such as a form lets pass, if those in the database of the beginning are. -/
theorem stored_texts_pass_forms (hempty : count "" = 0) (hfirst : ∀ n s, count (first n s) ≤ n)
    {C : World → Label → Prop} {server : Firebase} {sessions : ℕ → Option String} {w : World}
    (hserver : TifaSoccer.TextsOk count server)
    (hrun : Reaches (service count first).step C (World.start server sessions) w) :
    TifaSoccer.TextsOk count w.server :=
  (textsOk_of_reaches hempty hfirst hserver hrun).1

/-- An empty server has no texts. -/
theorem textsOk_nothing : TifaSoccer.TextsOk count ⟨.null, []⟩ := ⟨Json.fields_null, by simp⟩

/-- A shortened text has at most the given length. -/
theorem length_scalarsFirst_le (n : ℕ) (s : String) : (scalarsFirst n s).length ≤ n := by
  simp [scalarsFirst]

/-- The texts after a registration. -/
theorem stored_texts_pass_forms_registration :
    ∃ w, exec (restrict (service String.length scalarsFirst).step fun _ _ => True)
        (World.start ⟨.null, []⟩ fun _ => none) registersAndTypes = some w ∧
      (userNode w.server.database "n").field "nameSurname" = some "nord" ∧
      TifaSoccer.TextsOk String.length w.server := by
  obtain ⟨w, hw, hname⟩ := Option.map_eq_some_iff.mp (show (exec (restrict
    (service String.length scalarsFirst).step fun _ _ => True)
    (World.start ⟨.null, []⟩ fun _ => none) registersAndTypes).map
    (fun w => (userNode w.server.database "n").field "nameSurname") = some (some "nord")
    from by decide +kernel)
  exact ⟨w, hw, hname, stored_texts_pass_forms rfl length_scalarsFirst_le textsOk_nothing
    (reaches_of_exec hw)⟩

end Invariant

/-! ## Signing in -/

section SigningIn

open Run Async

variable {count : String → ℕ} {first : ℕ → String → String}

/-- The device after its user has tapped the button of a form that passes. -/
def signingIn (d : Device) : Device :=
  { d with
    client := { d.client with base := { d.client.base with isLoad := true } }
    signInView := { d.signInView with isValidEmail := true, isValidPassword := true } }

/-- The device after its user has signed in to an account. -/
def signedIn (d : Device) (uid : String) : Device :=
  { d with
    client :=
      { d.client with
        currentUser := some uid
        base := { d.client.base with isLoad := false, isLoggedIn := true } }
    signInView := {}
    registerView := {} }

/-- No tap and no completion issues more than one request. -/
theorem sequential : Sequential (service count first) := frontEnd.sequential App.sequential

/-- No two accounts come to share an address. -/
theorem emails_nodup_of_reaches {C : World → Label → Prop} {server : Firebase}
    {sessions : ℕ → Option String} {w : World}
    (hserver : (server.accounts.map Account.email).Nodup)
    (hrun : Reaches (service count first).step C (World.start server sessions) w) :
    (w.server.accounts.map Account.email).Nodup :=
  server_invariant (I := fun s => (s.accounts.map Account.email).Nodup) hrun hserver
    fun _ _ fl o _ hI _ _ => emails_nodup_serve fl.request o hI

/-- The tap on the button of a form that passes starts the sign-in. -/
theorem call_tapSignIn (first : ℕ → String → String) {d : Device}
    (hout : d.client.base.isLoggedIn = false) (hscreen : d.isRegisterViewShowing = false)
    (hemail : isValidEmail d.signInView.email = true)
    (hpassword : 6 ≤ count d.signInView.password) :
    d.call count first .tapSignIn =
      some (d.signingIn, [.base (.login d.signInView.email d.signInView.password)]) := by
  simp only [call, hout, hscreen, and_self, if_true, SignInView.button_of_valid hemail hpassword]
  simp [run, signingIn, Client.call, Client.withBase, BaseViewModel.login, BaseViewModel.send,
    BaseViewModel.Request.remote, Except.map, Except.toOption, withClient, hout, hscreen, bind,
    Except.bind, pure, Except.pure]

/-- Auth answers with the user and dispatches the callback. -/
theorem complete_login {d : Device} (hout : d.client.base.isLoggedIn = false)
    (orders : ℕ → DictOrder) (email password uid : String) :
    d.complete orders (.base (.login email password)) (.user uid) =
      some ({ d with client := { d.client with currentUser := some uid } },
        [.base .loginCallback]) := by
  simp [complete, Client.complete, Client.authenticated, Client.withBase, BaseViewModel.complete,
    BaseViewModel.signInFlow, BaseViewModel.send, BaseViewModel.Request.remote, Except.map,
    Except.toOption, withClient, hout, bind, Except.bind, pure, Except.pure]

/-- The callback ends the sign-in. -/
theorem complete_loginCallback (d : Device) (orders : ℕ → DictOrder) (a : Answer) :
    d.complete orders (.base .loginCallback) a =
      some ({ d with
          client :=
            { d.client with base := { d.client.base with isLoad := false, isLoggedIn := true } }
          signInView := {}
          registerView := {} }, []) := by
  rfl

/-- The chain of a sign-in with the credentials of an account. -/
theorem settled_login {s s' : Firebase} {d d' : Device} {account : Account}
    (hemails : (s.accounts.map Account.email).Nodup) (haccount : account ∈ s.accounts)
    (hout : d.client.base.isLoggedIn = false) :
    Settled (service count first) Outcome.succeeds s d
      [.base (.login account.email account.password)] s' d' ↔
      s' = s ∧ d' = d.signedIn account.uid := by
  have hnonempty : Nonempty (ℕ → DictOrder) := ⟨fun _ => .byKey⟩
  have hok : ∃ o : Outcome, o.succeeds := ⟨{}, rfl⟩
  rw [settled_singleton_of_forall hok (fun _ ho => serve_signIn hemails haccount ho)
      fun orders => complete_login hout orders _ _ _,
    settled_singleton_of_forall hok (fun _ ho => serve_dispatched s ho)
      fun orders => complete_loginCallback _ orders _]
  exact settled_nil

end SigningIn

end Device

end TifaSoccer

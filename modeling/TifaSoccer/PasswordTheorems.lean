import TifaSoccer.ClientTheorems
import TifaSoccer.ViewModels.UpdatePasswordViewModel

/-!
# Setting a new password

The button of `UpdatePasswordView` tests the repeated password for its length and not against the
new one, and what is sent is the field as it is when the reauthentication has come back. So a
password that was not typed twice can be set, and one that was never tested at all;
`only_confirmed_password` is what holds when neither happens.
-/

namespace TifaSoccer

open Async Run

def UpdatePasswordViewModel.Request.reauthenticates : UpdatePasswordViewModel.Request → Bool
  | .reauthenticate _ _ => true
  | .updatePassword _ _ => false

namespace UpdatePasswordView

/-- The screens and Auth. -/
abbrev World :=
  Async.World ℕ (List Account) UpdatePasswordView UpdatePasswordViewModel.Request Answer

abbrev Flight := Async.Flight ℕ UpdatePasswordView UpdatePasswordViewModel.Request Answer

abbrev Label := Async.Label ℕ Op Outcome Unit

/-! ## The calls of `updatePassword(to:)` -/

/-- A call `updatePassword(to:)` of Auth, with the screen at the tap that has led to it. -/
structure PasswordCall where
  password : String
  tap : UpdatePasswordView
deriving DecidableEq

def passwordCalls (tap : UpdatePasswordView) (rs : List UpdatePasswordViewModel.Request) :
    List PasswordCall :=
  rs.filterMap fun r =>
    match r with
    | .updatePassword _ password => some ⟨password, tap⟩
    | .reauthenticate _ _ => none

variable (count : String → ℕ)

/-- All calls `updatePassword(to:)` made so far. A request that a completion makes goes back to the
tap that issued the request completed. -/
def passwordHistory (calls : List PasswordCall) (w : World) : Label → List PasswordCall
  | .call i op => calls ++ passwordCalls (w.clients i) ((w.clients i).call count op).2
  | .serve _ _ => calls
  | .deliver n _ =>
    match w.flights[n]? with
    | some ⟨i, r, _, tap, some a⟩ => calls ++ passwordCalls tap ((w.clients i).complete r a).2
    | _ => calls

/-! ## One call and one completion -/

/-- A tap with a user to update. -/
def Op.submits : Op → Bool
  | .tapUpdate userEmail => userEmail.isSome
  | _ => false

/-- The button goes on to `updatePassword`. -/
def accepts (self : UpdatePasswordView) : Prop :=
  count self.updatePasswordViewModel.currentPassword = 6 ∧
    count self.updatePasswordViewModel.newPassword = 6 ∧
    count self.updatePasswordViewModel.newPasswordRetry = 6

instance (self : UpdatePasswordView) : Decidable (self.accepts count) :=
  inferInstanceAs (Decidable (_ ∧ _ ∧ _))

/-- Only a tap that is accepted sends something, and it sends the old password. -/
theorem call_spec (self : UpdatePasswordView) (op : Op) :
    (self.call count op).2 = [] ∨
      op.submits = true ∧ self.accepts count ∧ ∃ userEmail, (self.call count op).2 =
        [.reauthenticate userEmail self.updatePasswordViewModel.currentPassword] := by
  cases op with
  | tapUpdate userEmail =>
    simp only [call, updateProfileButton]
    split_ifs with hold hnew hretry
    · exact .inl rfl
    · exact .inl rfl
    · exact .inl rfl
    · cases userEmail with
      | none => exact .inl rfl
      | some userEmail =>
        exact .inr ⟨rfl, ⟨not_not.mp hold, not_not.mp hnew, not_not.mp hretry⟩, userEmail, rfl⟩
  | _ => exact .inl rfl

/-- Only a successful reauthentication sends something: the new password as it is now. -/
theorem complete_spec (self : UpdatePasswordView) (r : UpdatePasswordViewModel.Request)
    (a : Answer) :
    (self.complete r a).2 = [] ∨
      r.reauthenticates = true ∧ a.succeeded = true ∧ ∃ userEmail, (self.complete r a).2 =
        [.updatePassword userEmail self.updatePasswordViewModel.newPassword] := by
  cases r with
  | reauthenticate userEmail password =>
    cases a with
    | error e => exact .inl rfl
    | _ => exact .inr ⟨rfl, rfl, userEmail, rfl⟩
  | updatePassword userEmail password => cases a <;> exact .inl rfl

/-! ## Whole runs -/

/-- A tap that is accepted finds the new password typed twice. -/
def TypedTwice (w : World) (i : ℕ) (op : Op) : Prop :=
  op.submits = true → (w.clients i).accepts count →
    (w.clients i).updatePasswordViewModel.newPasswordRetry =
      (w.clients i).updatePasswordViewModel.newPassword

/-- A successful reauthentication comes back while the field of the new password is as it was at
the tap. -/
def FieldKept (w : World) (fl : Flight) : Prop :=
  fl.request.reauthenticates = true → ∀ a ∈ fl.answer, a.succeeded = true →
    (w.clients fl.owner).updatePasswordViewModel.newPassword =
      fl.issuedIn.updatePasswordViewModel.newPassword

def PasswordConfirmed (w : World) (l : Label) : Prop :=
  OnCall (TypedTwice count) w l ∧ OnDeliver FieldKept w l

instance (w : World) (i : ℕ) (op : Op) : Decidable (TypedTwice count w i op) :=
  inferInstanceAs (Decidable (op.submits = true → (w.clients i).accepts count → _))

instance (w : World) (fl : Flight) : Decidable (FieldKept w fl) :=
  inferInstanceAs (Decidable (fl.request.reauthenticates = true → ∀ a ∈ fl.answer, _))

instance (w : World) (l : Label) : Decidable (PasswordConfirmed count w l) :=
  inferInstanceAs (Decidable (OnCall (TypedTwice count) w l ∧ OnDeliver FieldKept w l))

/-- The fields at a tap that has sent a request. -/
theorem tapped_of_reaches {w₀ w : World} (h₀ : w₀.flights = [])
    (hrun : Reaches (service count).step (PasswordConfirmed count) w₀ w) :
    ∀ fl ∈ w.flights, fl.request.reauthenticates = true →
      fl.issuedIn.accepts count ∧
        fl.issuedIn.updatePasswordViewModel.newPasswordRetry =
          fl.issuedIn.updatePasswordViewModel.newPassword := by
  refine flight_invariant (P := service count) hrun h₀ ?_ ?_ ?_
  · intro w i op c rs r _ hC hcall hr _
    have hrs : rs = ((w.clients i).call count op).2 :=
      (congrArg Prod.snd (Option.some.inj hcall)).symm
    rw [hrs] at hr
    rcases call_spec count (w.clients i) op with hnone | ⟨hop, haccepts, -⟩
    · rw [hnone] at hr
      cases hr
    · exact ⟨haccepts, hC.1 hop haccepts⟩
  · intro w n o fl _ _ _ _ hJ
    exact hJ
  · intro w n d fl a c rs r _ _ _ _ _ hcomplete hr hrequest
    have hrs : rs = ((w.clients fl.owner).complete fl.request a).2 :=
      (congrArg Prod.snd (Option.some.inj hcomplete)).symm
    rw [hrs] at hr
    rcases complete_spec (w.clients fl.owner) fl.request a with hnone | ⟨_, _, email, hsent⟩
    · rw [hnone] at hr
      cases hr
    · -- a completion sends no reauthentication
      rw [hsent, List.mem_singleton] at hr
      rw [show r = _ from hr] at hrequest
      cases hrequest

/-- A call that the completion of a request makes. -/
theorem confirmed_of_deliver {w₀ w : World} (h₀ : w₀.flights = [])
    (hrun : Reaches (service count).step (PasswordConfirmed count) w₀ w) {n : ℕ} {d : Unit}
    (hC : PasswordConfirmed count w (.deliver n d)) {i : ℕ} {r : UpdatePasswordViewModel.Request}
    {cause : Option UpdatePasswordViewModel.Request} {tap : UpdatePasswordView} {a : Answer}
    (hget : w.flights[n]? = some ⟨i, r, cause, tap, some a⟩) {c : PasswordCall}
    (hc : c ∈ passwordCalls tap ((w.clients i).complete r a).2) :
    count c.password = 6 ∧ c.tap.updatePasswordViewModel.newPassword = c.password ∧
      c.tap.updatePasswordViewModel.newPasswordRetry = c.password := by
  rcases complete_spec (w.clients i) r a with hnil | ⟨hr, ha, email, hsent⟩
  · rw [hnil] at hc
    cases hc
  · -- the request was a reauthentication, so `tap` is the screen at an accepted tap
    obtain ⟨haccepts, htwice⟩ := tapped_of_reaches count h₀ hrun _ (List.mem_of_getElem? hget) hr
    have hkept : (w.clients i).updatePasswordViewModel.newPassword =
        tap.updatePasswordViewModel.newPassword := hC.2 _ hget hr a rfl ha
    rw [hsent] at hc
    rw [List.mem_singleton.mp hc]
    show count (w.clients i).updatePasswordViewModel.newPassword = 6 ∧ _ = _ ∧ _ = _
    rw [hkept]
    exact ⟨haccepts.2.1, rfl, htwice⟩

/-- Along every run of any number of screens, with any edits, taps and completions in any order, in
which an accepted tap finds the new password typed twice and the field is not changed before the
reauthentication has come back: each password that Auth is asked to set has six characters and stood
in both fields at its tap. -/
theorem only_confirmed_password {w₀ : World} {s : World × List PasswordCall}
    (h₀ : w₀.flights = [])
    (hrun : Reaches (record (service count).step (passwordHistory count))
      (fun s l => PasswordConfirmed count s.1 l) (w₀, []) s) :
    ∀ c ∈ s.2, count c.password = 6 ∧
      c.tap.updatePasswordViewModel.newPassword = c.password ∧
      c.tap.updatePasswordViewModel.newPasswordRetry = c.password := by
  refine hrun.invariant (I := fun s => ∀ c ∈ s.2, count c.password = 6 ∧
    c.tap.updatePasswordViewModel.newPassword = c.password ∧
    c.tap.updatePasswordViewModel.newPasswordRetry = c.password) (by simp) ?_
  intro s l s' hreach hI hC hstep
  obtain ⟨-, hcalls⟩ := record_eq_some.mp hstep
  rw [hcalls]
  cases l with
  | serve n o => exact hI
  | call i op =>
    -- a tap sends no password
    have hnone : passwordCalls (s.1.clients i) ((s.1.clients i).call count op).2 = [] := by
      rcases call_spec count (s.1.clients i) op with hnil | ⟨-, -, _, hsent⟩
      · rw [hnil]
        rfl
      · rw [hsent]
        rfl
    rw [passwordHistory, hnone, List.append_nil]
    exact hI
  | deliver n d =>
    simp only [passwordHistory]
    split
    · rename_i i r cause tap a hget
      intro c hc
      rcases List.mem_append.mp hc with hc | hc
      · exact hI c hc
      · exact confirmed_of_deliver count h₀ (hreach.of_record fun _ _ hl => hl) hC hget hc
    · exact hI

/-! ## Concrete runs -/

/-- One account, and screens that have just been opened. -/
def opened : World := ⟨[⟨"n", "n@mail.com", "oldpas"⟩], fun _ => {}, []⟩

/-- The user fills in the form and taps the button. -/
def submitted (newPassword newPasswordRetry : String) : List Label :=
  [.call 0 (.editCurrentPassword "oldpas"), .call 0 (.editNewPassword newPassword),
    .call 0 (.editNewPasswordRetry newPasswordRetry), .call 0 (.tapUpdate (some "n@mail.com")),
    .serve 0 {}]

/-- The password that has been set and what stood in the two fields at the tap. -/
def PasswordCall.fields (c : PasswordCall) : String × String × String :=
  (c.password, c.tap.updatePasswordViewModel.newPassword,
    c.tap.updatePasswordViewModel.newPasswordRetry)

/-- A new password typed twice, and accepted. -/
theorem only_confirmed_password_typed_twice :
    ∃ s, exec (restrict (record (service String.length).step (passwordHistory String.length))
        fun s l => PasswordConfirmed String.length s.1 l) (opened, [])
        (submitted "newpas" "newpas" ++ [.deliver 0 (), .serve 0 {}]) = some s ∧
      s.2.map PasswordCall.fields = [("newpas", "newpas", "newpas")] ∧
      s.1.server = [⟨"n", "n@mail.com", "newpas"⟩] ∧
      ∀ c ∈ s.2, c.password.length = 6 := by
  obtain ⟨s, hs, hcalls⟩ := Option.map_eq_some_iff.mp (show (exec (restrict
    (record (service String.length).step (passwordHistory String.length))
    fun s l => PasswordConfirmed String.length s.1 l) (opened, [])
    (submitted "newpas" "newpas" ++ [.deliver 0 (), .serve 0 {}])).map
    (fun s => (s.2.map PasswordCall.fields, s.1.server)) =
      some ([("newpas", "newpas", "newpas")], [⟨"n", "n@mail.com", "newpas"⟩]) from by
    decide +kernel)
  obtain ⟨hfields, hserver⟩ := Prod.mk.inj hcalls
  refine ⟨s, hs, hfields, hserver, fun c hc => ?_⟩
  exact (only_confirmed_password String.length rfl (reaches_of_exec hs) c hc).1

/-- The repeated password is another one, and the new password is set; or the field is edited while
the reauthentication is on its way, and a password of one character is sent. -/
theorem unconfirmed_password_is_sent :
    (∃ s, exec (record (service String.length).step (passwordHistory String.length)) (opened, [])
        (submitted "abcdef" "ghijkl" ++ [.deliver 0 ()]) = some s ∧
      s.2.map PasswordCall.fields = [("abcdef", "abcdef", "ghijkl")]) ∧
    ∃ s, exec (record (service String.length).step (passwordHistory String.length)) (opened, [])
        (submitted "abcdef" "abcdef" ++ [.call 0 (.editNewPassword "x"), .deliver 0 ()]) =
          some s ∧
      s.2.map PasswordCall.fields = [("x", "abcdef", "abcdef")] := by
  constructor
  · exact Option.map_eq_some_iff.mp (show (exec (record (service String.length).step
      (passwordHistory String.length)) (opened, []) (submitted "abcdef" "ghijkl" ++
      [.deliver 0 ()])).map (fun s => s.2.map PasswordCall.fields) =
        some [("abcdef", "abcdef", "ghijkl")] from by decide +kernel)
  · exact Option.map_eq_some_iff.mp (show (exec (record (service String.length).step
      (passwordHistory String.length)) (opened, []) (submitted "abcdef" "abcdef" ++
      [.call 0 (.editNewPassword "x"), .deliver 0 ()])).map
      (fun s => s.2.map PasswordCall.fields) = some [("x", "abcdef", "abcdef")] from by
      decide +kernel)

end UpdatePasswordView

end TifaSoccer

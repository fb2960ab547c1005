import TifaSoccer.Lib.Async
import TifaSoccer.Repository

/-!
# `UpdatePasswordViewModel` and its view

The form has three fields. The button tests their lengths and calls `updatePassword`, which signs
the user in again with the old password and, when that has succeeded, asks Auth for the new one. The
new password is read from its field again at that moment.

The screen talks to Auth alone, so it is a system of its own here. `count` is the number of
characters of a string, which Swift takes from the Unicode segmentation of the text; nothing depends
on what it counts.
-/

namespace TifaSoccer

/-! ## The view model -/

structure UpdatePasswordViewModel where
  isLoad : Bool := false
  currentPassword : String := ""
  newPassword : String := ""
  newPasswordRetry : String := ""
  errorMessage : String := ""
  showAlert : Bool := false
  successMessage : String := ""
  showSuccessAlert : Bool := false
deriving DecidableEq

namespace UpdatePasswordViewModel

/-- The calls of Auth; `userEmail` names the user the closure has captured. -/
inductive Request where
  | reauthenticate (userEmail password : String)
  | updatePassword (userEmail password : String)
deriving DecidableEq

/-- `userEmail` is the e-mail address of the user Auth reports, if there is one. Without it the
function ends after it has set `isLoad`. -/
def updatePassword (self : UpdatePasswordViewModel) (userEmail : Option String) :
    UpdatePasswordViewModel × List Request :=
  let self := { self with isLoad := true }
  match userEmail with
  | some userEmail => (self, [.reauthenticate userEmail self.currentPassword])
  | none => (self, [])

def alert (self : UpdatePasswordViewModel) (errorMessage : String) : UpdatePasswordViewModel :=
  { self with errorMessage := errorMessage, isLoad := false, showAlert := true }

/-- The completion of each call; `newPassword` is the field as it is now. -/
def complete (self : UpdatePasswordViewModel) :
    Request → Answer → UpdatePasswordViewModel × List Request
  | .reauthenticate _ _, .error e => (self.alert e, [])
  | .reauthenticate userEmail _, _ => (self, [.updatePassword userEmail self.newPassword])
  | .updatePassword _ _, .error e => (self.alert e, [])
  | .updatePassword _ _, _ =>
    ({ self with
      successMessage := "Şifre başarılı bir şekilde güncellendi."
      isLoad := false
      showSuccessAlert := true }, [])

end UpdatePasswordViewModel

/-! ## The view -/

structure UpdatePasswordView where
  updatePasswordViewModel : UpdatePasswordViewModel := {}
  isOldPasswordValid : Bool := true
  isNewPasswordValid : Bool := true
  isNewPasswordRetryValid : Bool := true
deriving DecidableEq

namespace UpdatePasswordView

/-- What the user can do on the screen. -/
inductive Op where
  | editCurrentPassword (text : String)
  | editNewPassword (text : String)
  | editNewPasswordRetry (text : String)
  /-- a tap on the button, with the e-mail address of the user Auth reports -/
  | tapUpdate (userEmail : Option String)
  /-- the user closes the error dialog -/
  | dismissAlert
  | dismissSuccessAlert
deriving DecidableEq

variable (count : String → ℕ)

/-- The action of `updateProfileButton`: the three fields are tested one after the other. -/
def updateProfileButton (self : UpdatePasswordView) (userEmail : Option String) :
    UpdatePasswordView × List UpdatePasswordViewModel.Request :=
  if count self.updatePasswordViewModel.currentPassword ≠ 6 then
    ({ self with isOldPasswordValid := false }, [])
  else
    let self := { self with isOldPasswordValid := true }
    if count self.updatePasswordViewModel.newPassword ≠ 6 then
      ({ self with isNewPasswordValid := false }, [])
    else
      let self := { self with isNewPasswordValid := true }
      if count self.updatePasswordViewModel.newPasswordRetry ≠ 6 then
        ({ self with isNewPasswordRetryValid := false }, [])
      else
        let self := { self with isNewPasswordRetryValid := true }
        let (vm, requests) := self.updatePasswordViewModel.updatePassword userEmail
        ({ self with updatePasswordViewModel := vm }, requests)

def call (self : UpdatePasswordView) :
    Op → UpdatePasswordView × List UpdatePasswordViewModel.Request
  | .editCurrentPassword text =>
    ({ self with
      updatePasswordViewModel := { self.updatePasswordViewModel with currentPassword := text } },
      [])
  | .editNewPassword text =>
    ({ self with
      updatePasswordViewModel := { self.updatePasswordViewModel with newPassword := text } }, [])
  | .editNewPasswordRetry text =>
    ({ self with
      updatePasswordViewModel := { self.updatePasswordViewModel with newPasswordRetry := text } },
      [])
  | .tapUpdate userEmail => self.updateProfileButton count userEmail
  | .dismissAlert =>
    ({ self with
      updatePasswordViewModel :=
        { self.updatePasswordViewModel with showAlert := false, errorMessage := "" } }, [])
  | .dismissSuccessAlert =>
    ({ self with
      updatePasswordViewModel :=
        { self.updatePasswordViewModel with showSuccessAlert := false, successMessage := "" } },
      [])

def complete (self : UpdatePasswordView) (r : UpdatePasswordViewModel.Request) (a : Answer) :
    UpdatePasswordView × List UpdatePasswordViewModel.Request :=
  let (vm, requests) := self.updatePasswordViewModel.complete r a
  ({ self with updatePasswordViewModel := vm }, requests)

/-! ## Auth -/

/-- Auth's step for a call: the credentials have to be those of an account, a new password replaces
the old one, and any call may fail. -/
def serve (accounts : List Account) (r : UpdatePasswordViewModel.Request) (o : Outcome) :
    List Account × Answer :=
  match o.error, r with
  | some e, _ => (accounts, .error e)
  | none, .reauthenticate userEmail password =>
    if accounts.any fun a => a.email = userEmail ∧ a.password = password then (accounts, .ok)
    else (accounts, .error "The password is invalid or the user does not have a password.")
  | none, .updatePassword userEmail password =>
    (accounts.map fun a => if a.email = userEmail then { a with password := password } else a, .ok)

/-- Any number of these screens and one Auth project. -/
def service : Async.Service (List Account) UpdatePasswordView Op UpdatePasswordViewModel.Request
    Answer Outcome Unit where
  call c op := some (c.call count op)
  serve := serve
  complete c r a _ := some (c.complete r a)

end UpdatePasswordView

end TifaSoccer

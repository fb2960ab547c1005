import TifaSoccer.Lib.FrontEnd
import TifaSoccer.Views

/-!
# The forms

What the user types stays in a form until a button hands it over. The action of a button tests the
fields one after the other, marks the first one that does not pass and stops there; it calls the
view model if all of them pass. A `Device` is a client with its forms, and `Device.service` has the
taps of the user in the place of the calls.

`count` and `first` are `count` and `prefix` of a Swift string, which follow the Unicode
segmentation of the text. The fields of `CreateMatchView` and of `UpdateProfileView` belong to the
view models in the source; nothing but the button reads them there, so that they are kept with the
forms here, and `isRegisterViewShowing` with them. `UpdatePasswordView` is in a module of its own.
-/

namespace TifaSoccer

/-! ## Patterns -/

/-- What `SELF MATCHES` compares with: a pattern for the whole text. -/
abbrev Pattern := List Char → Bool

namespace Pattern

/-- `[set]+` -/
def some (set : Char → Bool) : Pattern := fun s => !s.isEmpty && s.all set

/-- `[set]{least,most}` -/
def between (set : Char → Bool) (least most : ℕ) : Pattern :=
  fun s => decide (least ≤ s.length ∧ s.length ≤ most) && s.all set

def char (c : Char) : Pattern := fun s => s == [c]

/-- One pattern after the other: the text can be cut so that they match the two parts. -/
def andThen (a b : Pattern) : Pattern :=
  fun s => (List.range (s.length + 1)).any fun n => a (s.take n) && b (s.drop n)

end Pattern

/-- `[A-Z0-9a-z._%+-]+@[A-Za-z0-9.-]+\.[A-Za-z]{2,64}` -/
def emailRegEx : Pattern :=
  (Pattern.some fun c => c.isAlphanum || "._%+-".toList.contains c).andThen <|
  (Pattern.char '@').andThen <|
  (Pattern.some fun c => c.isAlphanum || ".-".toList.contains c).andThen <|
  (Pattern.char '.').andThen <|
  Pattern.between Char.isAlpha 2 64

def isValidEmail (self : String) : Bool := emailRegEx self.toList

/-- The positions a player can choose. -/
inductive Mevki where
  | joker | stoper | solBek | sagBek | ortaSaha | sagKanat | solKanat | kaleci
deriving DecidableEq

def Mevki.rawValue : Mevki → String
  | .joker => "Joker"
  | .stoper => "Stoper"
  | .solBek => "Sol Bek"
  | .sagBek => "Sağ Bek"
  | .ortaSaha => "Orta Saha"
  | .sagKanat => "Sağ Kanat"
  | .solKanat => "Sol Kanat"
  | .kaleci => "Kaleci"

section Forms

variable (count : String → ℕ) (first : ℕ → String → String)

/-! ## `SignInView` -/

structure SignInView where
  isValidEmail : Bool := true
  isValidPassword : Bool := true
  email : String := ""
  password : String := ""

/-- The action of the button: the form afterwards and the call, if there is one. -/
def SignInView.button (self : SignInView) : SignInView × Option Op :=
  if TifaSoccer.isValidEmail self.email = false then
    ({ self with isValidEmail := false }, none)
  else
    let self := { self with isValidEmail := true }
    if count self.password < 6 then ({ self with isValidPassword := false }, none)
    else ({ self with isValidPassword := true }, some (.login self.email self.password))

/-! ## `RegisterView` -/

structure RegisterView where
  email : String := ""
  nameSurname : String := ""
  password : String := ""
  passwordRetry : String := ""
  isPasswordValid : Bool := true
  isPasswordRetryValid : Bool := true
  isEmailValid : Bool := true
  isNameValid : Bool := true

/-- The test of the name marks the e-mail address; nothing changes `isNameValid`. -/
def RegisterView.button (self : RegisterView) : RegisterView × Option Op :=
  if isValidEmail self.email = false then ({ self with isEmailValid := false }, none)
  else
    let self := { self with isEmailValid := true }
    if count self.nameSurname = 3 then ({ self with isEmailValid := false }, none)
    else
      let self := { self with isEmailValid := true }
      if count self.password ≠ 6 then ({ self with isPasswordValid := false }, none)
      else
        let self := { self with isPasswordValid := true }
        if self.password ≠ self.passwordRetry then
          ({ self with isPasswordRetryValid := false }, none)
        else
          ({ self with isPasswordRetryValid := true },
            some (.register self.email self.password self.nameSurname))

/-! ## `CreateMatchView` -/

structure CreateMatchView where
  matchStartDate : Int64 := 0
  matchFinishDate : Int64 := 0
  footballArea : String := ""
  adminMessage : String := ""
  isEmptyFootballArea : Bool := true
  isEmptyAdminMessage : Bool := true

/-- `matchID` is the UUID the device generates. -/
def CreateMatchView.button (self : CreateMatchView) (matchID : String) :
    CreateMatchView × Option Op :=
  if self.footballArea = "" then ({ self with isEmptyFootballArea := false }, none)
  else
    let self := { self with isEmptyFootballArea := true }
    if self.adminMessage = "" then ({ self with isEmptyAdminMessage := false }, none)
    else
      ({ self with isEmptyAdminMessage := true },
        some (.createMatch matchID self.adminMessage self.footballArea self.matchStartDate
          self.matchFinishDate))

/-! ## `UpdateProfileView` -/

structure UpdateProfileView where
  nameSurname : String := ""
  position : String := ""
  isNameValid : Bool := true

/-- The form is filled with the cached profile when it appears. -/
def UpdateProfileView.onAppear (self : UpdateProfileView) (userModel : Option UserModel) :
    UpdateProfileView :=
  { self with
    position := (userModel.bind UserModel.position).getD Mevki.joker.rawValue
    nameSurname := (userModel.bind UserModel.nameSurname).getD "" }

def UpdateProfileView.button (self : UpdateProfileView) : UpdateProfileView × Option Op :=
  if count self.nameSurname = 3 then ({ self with isNameValid := false }, none)
  else
    ({ self with isNameValid := true }, some (.updatePlayerData self.nameSurname self.position))

/-! ## `CommentsView` -/

structure CommentsView where
  commentText : String := ""
  characterLimit : ℕ := 100
  /-- the number the label shows -/
  limitText : ℤ := 100

/-- `limitText(_ upper:)` -/
def CommentsView.limit (self : CommentsView) (upper : ℕ) : CommentsView :=
  if count self.commentText > upper then
    { self with commentText := first upper self.commentText }
  else self

/-- A change of the text, with the limit and the label that follow it. -/
def CommentsView.edit (self : CommentsView) (text : String) : CommentsView :=
  let self := { self with commentText := text }.limit count first self.characterLimit
  { self with limitText := self.characterLimit - count self.commentText }

/-- The text stays in the field. `uuid` and `key` are UUIDs, `date` is the date as a text. -/
def CommentsView.send (self : CommentsView) (uuid date key : String) : Op :=
  .addComment self.commentText uuid date key

/-! ## Devices -/

structure Device where
  client : Client
  isRegisterViewShowing : Bool := false
  signInView : SignInView := {}
  registerView : RegisterView := {}
  createMatchView : CreateMatchView := {}
  updateProfileView : UpdateProfileView := {}
  commentsView : CommentsView := {}

/-- The fields of the forms. -/
inductive Field where
  | signInEmail | signInPassword
  | registerEmail | registerNameSurname | registerPassword | registerPasswordRetry
  | footballArea | adminMessage
  | nameSurname
  | comment

/-- The calls that a form makes. -/
def Op.byForm : Op → Bool
  | .login _ _ => true
  | .register _ _ _ => true
  | .createMatch _ _ _ _ _ => true
  | .updatePlayerData _ _ => true
  | .addComment _ _ _ _ => true
  | _ => false

namespace Device

/-- What the user can do. -/
inductive Op where
  | edit (field : Field) (text : String)
  | pickStartDate (date : Int64)
  | pickFinishDate (date : Int64)
  | pickPosition (mevki : Mevki)
  | toggleRegisterView
  /-- an `UpdateProfileView` appears -/
  | openUpdateProfile
  | tapSignIn
  | tapRegister
  | tapCreateMatch (matchID : String)
  | tapUpdateProfile
  | tapComment (uuid date key : String)
  /-- a call that does not come from a form -/
  | other (op : TifaSoccer.Op)

def edit (d : Device) (text : String) : Field → Device
  | .signInEmail => { d with signInView := { d.signInView with email := text } }
  | .signInPassword => { d with signInView := { d.signInView with password := text } }
  | .registerEmail => { d with registerView := { d.registerView with email := text } }
  | .registerNameSurname => { d with registerView := { d.registerView with nameSurname := text } }
  | .registerPassword => { d with registerView := { d.registerView with password := text } }
  | .registerPasswordRetry =>
    { d with registerView := { d.registerView with passwordRetry := text } }
  | .footballArea => { d with createMatchView := { d.createMatchView with footballArea := text } }
  | .adminMessage => { d with createMatchView := { d.createMatchView with adminMessage := text } }
  | .nameSurname => { d with updateProfileView := { d.updateProfileView with nameSurname := text } }
  | .comment => { d with commentsView := d.commentsView.edit count first text }

/-- The client has changed. The forms of `AccountView` are gone while a user is signed in. -/
def withClient (d : Device) (client : Client) : Device :=
  if client.base.isLoggedIn then { d with client := client, signInView := {}, registerView := {} }
  else { d with client := client }

/-- Make the call of a button, if it makes one. -/
def run (d : Device) : Option TifaSoccer.Op → Option (Device × List Request)
  | some op => (d.client.call op).toOption.map fun p => (d.withClient p.1, p.2)
  | none => some (d, [])

/-- A tap needs the screen with its button; `AccountView` shows one of its two forms. -/
def call (d : Device) : Op → Option (Device × List Request)
  | .edit field text => some (d.edit count first text field, [])
  | .pickStartDate date =>
    some ({ d with createMatchView := { d.createMatchView with matchStartDate := date } }, [])
  | .pickFinishDate date =>
    some ({ d with createMatchView := { d.createMatchView with matchFinishDate := date } }, [])
  | .pickPosition mevki =>
    some ({ d with
      updateProfileView := { d.updateProfileView with position := mevki.rawValue } }, [])
  | .toggleRegisterView =>
    some ({ d with
      isRegisterViewShowing := !d.isRegisterViewShowing
      signInView := {}
      registerView := {} }, [])
  | .openUpdateProfile =>
    some ({ d with
      updateProfileView := d.updateProfileView.onAppear d.client.base.userModel }, [])
  | .tapSignIn =>
    if d.client.base.isLoggedIn = false ∧ d.isRegisterViewShowing = false then
      { d with signInView := (d.signInView.button count).1 }.run (d.signInView.button count).2
    else none
  | .tapRegister =>
    if d.client.base.isLoggedIn = false ∧ d.isRegisterViewShowing = true then
      { d with registerView := (d.registerView.button count).1 }.run
        (d.registerView.button count).2
    else none
  | .tapCreateMatch matchID =>
    if matchID ≠ "" then
      { d with createMatchView := (d.createMatchView.button matchID).1 }.run
        (d.createMatchView.button matchID).2
    else none
  | .tapUpdateProfile =>
    if d.client.base.isLoggedIn = true then
      { d with updateProfileView := (d.updateProfileView.button count).1 }.run
        (d.updateProfileView.button count).2
    else none
  | .tapComment uuid date key =>
    if d.client.detail.isSome = true ∧ key ≠ "" then
      d.run (some (d.commentsView.send uuid date key))
    else none
  | .other op => if op.byForm = false ∧ d.client.Offers op then d.run (some op) else none

def complete (d : Device) (orders : ℕ → DictOrder) (r : Request) (a : Answer) :
    Option (Device × List Request) :=
  (d.client.complete orders r a).toOption.map fun p => (d.withClient p.1, p.2)

abbrev World := Async.World ℕ Firebase Device Request Answer

abbrev Flight := Async.Flight ℕ Device Request Answer

abbrev Label := Async.Label ℕ Op Outcome (ℕ → DictOrder)

/-- Any number of devices and one Firebase project. -/
def service : Async.Service Firebase Device Op Request Answer Outcome (ℕ → DictOrder) where
  call := call count first
  serve s r o := r.serve s o
  complete d r a orders := d.complete orders r a

/-- The world right after all devices have started the app. -/
def World.start (server : Firebase) (sessions : ℕ → Option String) : World :=
  ⟨server, fun i => { client := Client.start (sessions i) }, []⟩

end Device

end Forms

end TifaSoccer

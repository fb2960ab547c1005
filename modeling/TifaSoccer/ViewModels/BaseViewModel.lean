import TifaSoccer.Repository

/-!
# `BaseViewModel`

The account of the user: sign-in, registration, sign-out, the cached profile and its picture.
`currentUserID` is the uid Auth reports when a function or completion consults it; Auth
itself is part of the client (`TifaSoccer.App`).

When a sign-in has succeeded, Auth changes its current user and dispatches the callback to the main
queue (`signInFlowAuthDataResultCallbackByDecoratingCallback` in FIRAuth.m). The callback runs in a
later step, and other functions may run in between: it is a request of its own here, which asks
nothing of the server. After a failure Auth changes nothing, so the callback is run at once.
-/

namespace TifaSoccer

structure BaseViewModel where
  selection : ℕ := 1
  isLoggedIn : Bool := false
  isRegisterViewShowing : Bool := false
  isLoad : Bool := false
  userModel : Option UserModel := none
  errorMessage : String := ""
  showAlert : Bool := false

namespace BaseViewModel

/-- `BaseViewModel.init()` -/
def init (currentUserID : Option String) : BaseViewModel :=
  { isLoggedIn := currentUserID.isSome }

/-! ## Requests -/

inductive Request where
  | login (email password : String)
  /-- the callback of a sign-in that has succeeded -/
  | loginCallback
  /-- the first request of `register`: create the account -/
  | registerCreate (email password nameSurname : String)
  /-- the callback of a creation that has succeeded, with the user of its result -/
  | registerCallback (uid email nameSurname : String)
  /-- the second request of `register`: write the record -/
  | registerWrite (currentUserID email nameSurname : String)
  | getCurrentUserData (currentUserId : String)
  /-- the three requests of `loadProfileImage`: upload, ask for the URL, write it -/
  | loadProfileImagePut (currentUserID : String)
  | loadProfileImageURL (currentUserID : String)
  | loadProfileImageWrite (currentUserID downloadURL : String)
deriving DecidableEq

/-- The picture a new user starts with. -/
def defaultPicture : String :=
  "https://firebasestorage.googleapis.com/v0/b/tifasoccer-703cd.appspot.com/o/" ++
    "UsersPicture%2FT-Soft%20Player.png?alt=media&token=3175c739-ef1c-4960-a90a-c88a1e47003d"

/-- The record `register` writes. -/
def registerParams (currentUserID email nameSurname : String) : List (String × Value) :=
  [("email", .leaf (.str email)),
   ("nameSurname", .leaf (.str nameSurname)),
   ("position", .leaf (.str "Joker")),
   ("rate", .leaf (.int 0)),
   ("picture", .leaf (.str defaultPicture)),
   ("uuid", .leaf (.str currentUserID)),
   ("authority", .leaf (.str "user"))]

/-- The Firebase call behind a request. -/
def Request.remote : Request → Except InvalidPath Remote
  | .login email password => return .signIn email password
  | .loginCallback => return .dispatched
  | .registerCreate email password _ => return .createUser email password
  | .registerCallback _ _ _ => return .dispatched
  | .registerWrite currentUserID email nameSurname => do
    return .setValue (← (getReference "Users").child currentUserID)
      (.object (registerParams currentUserID email nameSurname))
  | .getCurrentUserData currentUserId => do
    return .getData (← (getReference "Users").child currentUserId)
  | .loadProfileImagePut currentUserID => return .putData currentUserID
  | .loadProfileImageURL currentUserID => return .downloadURL currentUserID
  | .loadProfileImageWrite currentUserID downloadURL => do
    let reference ← (getReference "Users").child currentUserID
    return .setValue (← reference.child "picture") (.leaf (.str downloadURL))

abbrev Effect := Except InvalidPath (BaseViewModel × List Request)

def send (self : BaseViewModel) (r : Request) : Effect := do
  let _ ← r.remote
  return (self, [r])

/-- The failure exit of `login` and `register`. -/
def refuse (self : BaseViewModel) (errorMessage : String) : BaseViewModel :=
  { self with
    isLoad := false
    isLoggedIn := false
    errorMessage := errorMessage
    showAlert := true }

/-! ## Sign-in and registration -/

def login (self : BaseViewModel) (email password : String) : Effect :=
  { self with isLoad := true }.send (.login email password)

/-- What becomes of the answer to a sign-in: its callback is dispatched, or fails. -/
def signInFlow (self : BaseViewModel) (callback : Request) : Answer → Effect
  | .error e => return (self.refuse e, [])
  | _ => self.send callback

/-- The callback of `login` without an error. -/
def loginCompletion (self : BaseViewModel) : BaseViewModel :=
  { self with isLoad := false, isLoggedIn := true }

def register (self : BaseViewModel) (email password nameSurname : String) : Effect :=
  { self with isLoad := true }.send (.registerCreate email password nameSurname)

/-- The callback of `createUser` without an error. It asks Auth who is signed in now. -/
def registerCreateCompletion (self : BaseViewModel) (currentUserID : Option String)
    (email nameSurname : String) : Effect :=
  match currentUserID with
  | some currentUserID => self.send (.registerWrite currentUserID email nameSurname)
  | none => return (self.refuse "Bir Hata Meydana Geldi !", [])

def registerWriteCompletion (self : BaseViewModel) : Answer → BaseViewModel
  | .error e => self.refuse e
  | _ => { self with isLoad := false, isLoggedIn := true }

/-- `signOut` after Auth has signed the user out; when Auth throws, nothing changes. -/
def signOut (self : BaseViewModel) : BaseViewModel :=
  { self with userModel := none, isLoggedIn := false }

/-! ## The cached profile -/

def getCurrentUserData (self : BaseViewModel) (currentUserID : Option String) : Effect :=
  let self := { self with isLoad := true, userModel := none }
  match currentUserID with
  | some currentUserId => self.send (.getCurrentUserData currentUserId)
  | none => return ({ self with userModel := none, isLoad := false }, [])

/-- The completion does not look at the account that is signed in by then. -/
def getCurrentUserDataCompletion (self : BaseViewModel) : Answer → BaseViewModel
  | .error _ => { self with userModel := none, isLoad := false }
  | a => { self with userModel := a.value.asDictionary.map UserModel.init, isLoad := false }

def loadProfileImage (self : BaseViewModel) (currentUserID : Option String) : Effect :=
  let self := { self with isLoad := true }
  match currentUserID with
  | some currentUserID => self.send (.loadProfileImagePut currentUserID)
  | none => return ({ self with isLoad := false }, [])

def loadProfileImagePutCompletion (self : BaseViewModel) (currentUserID : String) :
    Answer → Effect
  | .error _ => return ({ self with isLoad := false }, [])
  | _ => self.send (.loadProfileImageURL currentUserID)

def loadProfileImageURLCompletion (self : BaseViewModel) (currentUserID : String) :
    Answer → Effect
  | .url downloadURL => self.send (.loadProfileImageWrite currentUserID downloadURL)
  | _ => return ({ self with isLoad := false }, [])

def loadProfileImageWriteCompletion (self : BaseViewModel) (downloadURL : String) :
    Answer → BaseViewModel
  | .error _ => { self with isLoad := false }
  | _ =>
    { self with
      isLoad := false
      userModel := self.userModel.map fun u => { u with picture := some downloadURL } }

/-! ## Completions -/

/-- The completion of each request. -/
def complete (self : BaseViewModel) (currentUserID : Option String) (r : Request) (a : Answer) :
    Effect :=
  match r with
  | .login _ _ => self.signInFlow .loginCallback a
  | .loginCallback => return (self.loginCompletion, [])
  | .registerCreate email _ nameSurname =>
    self.signInFlow (.registerCallback (a.uid.getD "") email nameSurname) a
  | .registerCallback _ email nameSurname =>
    self.registerCreateCompletion currentUserID email nameSurname
  | .registerWrite _ _ _ => return (self.registerWriteCompletion a, [])
  | .getCurrentUserData _ => return (self.getCurrentUserDataCompletion a, [])
  | .loadProfileImagePut currentUserID => self.loadProfileImagePutCompletion currentUserID a
  | .loadProfileImageURL currentUserID => self.loadProfileImageURLCompletion currentUserID a
  | .loadProfileImageWrite _ downloadURL =>
    return (self.loadProfileImageWriteCompletion downloadURL a, [])

end BaseViewModel

end TifaSoccer

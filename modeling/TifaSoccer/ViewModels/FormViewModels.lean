import TifaSoccer.Repository

/-!
# `CreateMatchViewModel`, `PlayersViewModel` and `UpdateProfileViewModel`

The three small view models. What the user typed into a form stands in the fields of its view
model; `createMatch` and `updatePlayerData` read it from there.
-/

namespace TifaSoccer

/-! ## Creating a match -/

structure CreateMatchViewModel where
  isLoad : Bool := false
  /-- the picked dates, as `millisecondsSince1970` -/
  matchStartDate : Int64 := 0
  matchFinishDate : Int64 := 0
  footballArea : String := ""
  adminMessage : String := ""
  isShowingCreateMatchView : Bool := true
  errorMessage : String := ""
  showAlert : Bool := false

namespace CreateMatchViewModel

inductive Request where
  | createMatch (matchID adminMessage footballArea : String) (startDate finishDate : Int64)
deriving DecidableEq

/-- The document of a new match. -/
def matchParams (matchID adminMessage footballArea : String) (startDate finishDate : Int64) :
    List (String × Value) :=
  [("adminMessage", .leaf (.str adminMessage)),
   ("finishDate", .leaf (.int finishDate)),
   ("startDate", .leaf (.int startDate)),
   ("footballArea", .leaf (.str footballArea)),
   ("matchID", .leaf (.str matchID)),
   ("isPlanningComplete", .leaf (.bool false))]

def Request.remote : Request → Except InvalidPath Remote
  | .createMatch matchID adminMessage footballArea startDate finishDate => do
    return .setValue (← (getReference "Matchs").child matchID)
      (.object (matchParams matchID adminMessage footballArea startDate finishDate))

abbrev Effect := Except InvalidPath (CreateMatchViewModel × List Request)

/-- `matchID` is the UUID the device generates. -/
def createMatch (self : CreateMatchViewModel) (matchID : String) : Effect := do
  let r := Request.createMatch matchID self.adminMessage self.footballArea self.matchStartDate
    self.matchFinishDate
  let _ ← r.remote
  return ({ self with isLoad := true }, [r])

def complete (self : CreateMatchViewModel) (_ : Request) : Answer → CreateMatchViewModel
  | .error e => { self with errorMessage := e, isLoad := false, showAlert := true }
  | _ => { self with isLoad := false, isShowingCreateMatchView := false }

end CreateMatchViewModel

/-! ## The list of players -/

structure PlayersViewModel where
  isLoad : Bool := false
  userModelList : List UserModel := []
  errorMessage : String := ""
  showAlert : Bool := false

namespace PlayersViewModel

inductive Request where
  | getAllPlayers
deriving DecidableEq

def Request.remote : Request → Except InvalidPath Remote
  | .getAllPlayers => return .getData (getReference "Users")

def getAllPlayers (self : PlayersViewModel) : PlayersViewModel × List Request :=
  ({ self with isLoad := true, userModelList := [] }, [.getAllPlayers])

/-- One turn of the loop over the children of the snapshot. -/
def appendChild (self : PlayersViewModel) (snap : Node) : PlayersViewModel :=
  match snap.asDictionary with
  | some placeDict =>
    { self with userModelList := self.userModelList ++ [UserModel.init placeDict], isLoad := false }
  | none => { self with userModelList := [], isLoad := false }

def complete (self : PlayersViewModel) (_ : Request) : Answer → PlayersViewModel
  | .error e =>
    { self with userModelList := [], isLoad := false, errorMessage := e, showAlert := true }
  | a => a.value.entries.foldl (fun self c => self.appendChild c.2) self

end PlayersViewModel

/-! ## Updating the profile -/

structure UpdateProfileViewModel where
  isLoad : Bool := false
  nameSurname : String := ""
  position : String := ""
  errorMessage : String := ""
  showAlert : Bool := false
  successMessage : String := ""
  showSuccessAlert : Bool := false

namespace UpdateProfileViewModel

inductive Request where
  | updatePlayerData (currentUserID nameSurname position : String)
deriving DecidableEq

def Request.remote : Request → Except InvalidPath Remote
  | .updatePlayerData currentUserID nameSurname position => do
    return .updateChildValues (← (getReference "Users").child currentUserID)
      [("nameSurname", .leaf (.str nameSurname)), ("position", .leaf (.str position))]

abbrev Effect := Except InvalidPath (UpdateProfileViewModel × List Request)

def updatePlayerData (self : UpdateProfileViewModel) (currentUserID : Option String) : Effect :=
  let self := { self with isLoad := true }
  match currentUserID with
  | some currentUserID => do
    let r := Request.updatePlayerData currentUserID self.nameSurname self.position
    let _ ← r.remote
    return (self, [r])
  | none => return (self, [])

def complete (self : UpdateProfileViewModel) (_ : Request) : Answer → UpdateProfileViewModel
  | .error e => { self with errorMessage := e, isLoad := false, showAlert := true }
  | _ =>
    { self with
      successMessage := "Profil bilgileri başarılı bir şekilde güncellendi."
      isLoad := false
      showSuccessAlert := true }

end UpdateProfileViewModel

end TifaSoccer

import TifaSoccer.Lib.Async
import TifaSoccer.ViewModels.BaseViewModel
import TifaSoccer.ViewModels.FormViewModels
import TifaSoccer.ViewModels.MatchsViewModel

/-!
# The app: any number of clients and one Firebase project

A client is one running copy of the app: the user Auth reports as signed in on the device, the
view models that live in `BaseView` and below it, and the match whose `MatchDetailView` is on
screen. `Client.call` runs a function of a view model, `Client.complete` the completion of a
request. `App.service` plugs both and `Firebase.serve` into the asynchronous system of
`TifaSoccer.Lib.Async`; an exception of `child` leaves a call or completion without successor,
since it ends the app.
-/

namespace TifaSoccer

/-! ## Requests -/

inductive Request where
  | base (r : BaseViewModel.Request)
  | matchs (r : MatchsViewModel.Request)
  | createMatch (r : CreateMatchViewModel.Request)
  | players (r : PlayersViewModel.Request)
  | updateProfile (r : UpdateProfileViewModel.Request)
deriving DecidableEq

def Request.remote : Request → Except InvalidPath Remote
  | .base r => r.remote
  | .matchs r => r.remote
  | .createMatch r => r.remote
  | .players r => r.remote
  | .updateProfile r => r.remote

/-- The server's step for a request. A request whose reference cannot be built is never sent. -/
def Request.serve (s : Firebase) (r : Request) (o : Outcome) : Firebase × Answer :=
  match r.remote with
  | .ok q => s.serve q o
  | .error e => (s, .error e.reason)

/-! ## Clients -/

structure Client where
  /-- `Auth.auth().currentUser?.uid` on this device -/
  currentUser : Option String := none
  base : BaseViewModel := {}
  matchs : MatchsViewModel := {}
  createMatch : CreateMatchViewModel := {}
  players : PlayersViewModel := {}
  updateProfile : UpdateProfileViewModel := {}
  /-- the `matchID` of the `MatchDetailView` on screen -/
  detail : Option String := none

/-- The app right after its start, with the session Auth has kept. -/
def Client.start (currentUser : Option String) : Client :=
  { currentUser := currentUser, base := BaseViewModel.init currentUser }

/-- What the user can make the app do. -/
inductive Op where
  | login (email password : String)
  | register (email password nameSurname : String)
  /-- Auth may throw; then nothing happens -/
  | signOut (throws : Bool)
  | getCurrentUserData
  | loadProfileImage
  | getAllMatchs
  | joinMatches (matchsID : String) (currentUser : UserModel)
  | leaveMatches (matchsID : String)
  | deleteMatches (matchsID : String)
  /-- a `MatchDetailView(matchID:)` appears -/
  | openDetail (matchID : String)
  | closeDetail
  | getMatchWithMatchID (matchID : String)
  | setPlayerPositionWithMatch (matchID playerPosition : String) (player : UserModel)
  | deletePlayerPositionWithMatch (matchID playerPosition : String)
  | setIsPlanningCompleteForMatch (matchID : String)
  | addComment (comment uuid date key : String)
  | createMatch (matchID adminMessage footballArea : String) (startDate finishDate : Int64)
  | getAllPlayers
  | updatePlayerData (nameSurname position : String)
  /-- the user closes the error dialog of the matches -/
  | dismissAlert

namespace Client

abbrev Effect := Except InvalidPath (Client × List Request)

def withBase (c : Client) (e : BaseViewModel.Effect) : Effect :=
  e.map fun p => ({ c with base := p.1 }, p.2.map Request.base)

def withMatchs (c : Client) (e : MatchsViewModel.Effect) : Effect :=
  e.map fun p => ({ c with matchs := p.1 }, p.2.map Request.matchs)

def withCreateMatch (c : Client) (e : CreateMatchViewModel.Effect) : Effect :=
  e.map fun p => ({ c with createMatch := p.1 }, p.2.map Request.createMatch)

def withUpdateProfile (c : Client) (e : UpdateProfileViewModel.Effect) : Effect :=
  e.map fun p => ({ c with updateProfile := p.1 }, p.2.map Request.updateProfile)

/-- Run a function of a view model. -/
def call (c : Client) : Op → Effect
  | .login email password => c.withBase (c.base.login email password)
  | .register email password nameSurname =>
    c.withBase (c.base.register email password nameSurname)
  | .signOut throws =>
    if throws then .ok (c, [])
    else .ok ({ c with currentUser := none, base := c.base.signOut }, [])
  | .getCurrentUserData => c.withBase (c.base.getCurrentUserData c.currentUser)
  | .loadProfileImage => c.withBase (c.base.loadProfileImage c.currentUser)
  | .getAllMatchs => c.withMatchs (.ok c.matchs.getAllMatchs)
  | .joinMatches matchsID currentUser => c.withMatchs (c.matchs.joinMatches matchsID currentUser)
  | .leaveMatches matchsID => c.withMatchs (c.matchs.leaveMatches c.currentUser matchsID)
  | .deleteMatches matchsID => c.withMatchs (c.matchs.deleteMatches matchsID)
  | .openDetail matchID =>
    { c with detail := some matchID }.withMatchs (c.matchs.getMatchWithMatchID matchID)
  | .closeDetail => .ok ({ c with detail := none }, [])
  | .getMatchWithMatchID matchID => c.withMatchs (c.matchs.getMatchWithMatchID matchID)
  | .setPlayerPositionWithMatch matchID playerPosition player =>
    c.withMatchs (c.matchs.setPlayerPositionWithMatch matchID playerPosition player)
  | .deletePlayerPositionWithMatch matchID playerPosition =>
    c.withMatchs (c.matchs.deletePlayerPositionWithMatch matchID playerPosition)
  | .setIsPlanningCompleteForMatch matchID =>
    c.withMatchs (c.matchs.setIsPlanningCompleteForMatch matchID)
  | .addComment comment uuid date key => c.withMatchs (c.matchs.addComment comment uuid date key)
  | .createMatch matchID adminMessage footballArea startDate finishDate =>
    let form : CreateMatchViewModel :=
      { c.createMatch with
        matchStartDate := startDate
        matchFinishDate := finishDate
        footballArea := footballArea
        adminMessage := adminMessage }
    c.withCreateMatch (form.createMatch matchID)
  | .getAllPlayers =>
    let (players, requests) := c.players.getAllPlayers
    .ok ({ c with players := players }, requests.map Request.players)
  | .updatePlayerData nameSurname position =>
    let form : UpdateProfileViewModel :=
      { c.updateProfile with nameSurname := nameSurname, position := position }
    c.withUpdateProfile (form.updatePlayerData c.currentUser)
  | .dismissAlert =>
    .ok ({ c with matchs := { c.matchs with showAlert := false, errorMessage := "" } }, [])

/-- Auth takes the answer to a sign-in or a registration: it changes its current user if there is no
error. -/
def authenticated (c : Client) : BaseViewModel.Request → Answer → Client
  | .login _ _, .user uid => { c with currentUser := some uid }
  | .registerCreate _ _ _, .user uid => { c with currentUser := some uid }
  | _, _ => c

/-- Run the completion of a request. -/
def complete (c : Client) (orders : ℕ → DictOrder) (r : Request) (a : Answer) : Effect :=
  match r with
  | .base r =>
    let c := c.authenticated r a
    c.withBase (c.base.complete c.currentUser r a)
  | .matchs r => c.withMatchs (c.matchs.complete orders r a)
  | .createMatch r => .ok ({ c with createMatch := c.createMatch.complete r a }, [])
  | .players r => .ok ({ c with players := c.players.complete r a }, [])
  | .updateProfile r => .ok ({ c with updateProfile := c.updateProfile.complete r a }, [])

end Client

/-! ## The system -/

abbrev World := Async.World ℕ Firebase Client Request Answer

abbrev Flight := Async.Flight ℕ Client Request Answer

abbrev Label := Async.Label ℕ Op Outcome (ℕ → DictOrder)

namespace App

def service : Async.Service Firebase Client Op Request Answer Outcome (ℕ → DictOrder) where
  call c op := (c.call op).toOption
  serve s r o := r.serve s o
  complete c r a orders := (c.complete orders r a).toOption

/-- One step of the clients and the server. -/
def step : World → Label → Option World := service.step

end App

/-- The world right after all clients have started. -/
def World.start (server : Firebase) (sessions : ℕ → Option String) : World :=
  ⟨server, fun i => Client.start (sessions i), []⟩

/-- The server takes request `n` and its client gets the answer, for concrete runs. -/
def roundTrip (n : ℕ) (o : Outcome) : List Label :=
  [.serve n o, .deliver n fun _ => .byKey]

/-- A user as `register` would have written it, for concrete runs. -/
def samplePlayer (uid : String) : UserModel where
  email := some (uid ++ "@mail.com")
  nameSurname := some uid
  position := some "Joker"
  rate := some 0
  picture := some "picture"
  uuid := some uid
  authority := some "user"

/-- One match `m` with the given players, as `createMatch` and `joinMatches` would have written
it, for concrete runs. -/
def sampleMatch (players : List String) : Firebase where
  database := players.foldl
    (fun db u => db.set ["Matchs", "m", "players", u] (.object (samplePlayer u).asDictionary))
    (Json.null.set ["Matchs", "m"]
      (.object (CreateMatchViewModel.matchParams "m" "message" "area" 0 1)))
  accounts := []

end TifaSoccer
